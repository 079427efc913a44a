import RegionIR.Decimal.Layout
import RegionIR.Ir.Basic
/-!
# The text of the intermediate form

An operator prints as its results, its quoted opcode and arguments, its regions, its attributes, and
its type. Regions are indented by four spaces a level, a label stands at the indentation of the operator
that owns the region.
-/
namespace RegionIR

namespace Ty

mutual

def render : Ty → String
  | unit => "()"
  | named name => "!_." ++ name
  | generic ctor args => "!_." ++ ctor ++ "<" ++ ",".intercalate (renderAll args) ++ ">"
  | unknown => "!_.Any"
termination_by structural t => t

def renderAll : List Ty → List String
  | [] => []
  | t :: rest => render t :: renderAll rest
termination_by structural ts => ts

end

end Ty

namespace Attr

/-- How one character stands inside an attribute text. -/
def escapedChar (c : Char) : List Char :=
  if c = '"' then ['\\', '"']
  else if c = '\\' then ['\\', '\\']
  else if c = '\n' then ['\\', 'n']
  else if c = '\t' then ['\\', 't']
  else [c]

/-- A text between double quotes. -/
def quote (s : String) : String :=
  String.ofList ('"' :: s.toList.flatMap escapedChar ++ ['"'])

mutual

def render : Attr → String
  | text s => quote s
  | int n => toString n
  | bigInt digits => digits
  | float x => Decimal.Layout.literal.text x
  | bool b => toString b
  | unit => "unit"
  | list items => "[" ++ ", ".intercalate (renderAll items) ++ "]"
  | functionType params result =>
    "(" ++ ", ".intercalate (params.map Ty.render) ++ ") -> " ++ result.render
termination_by structural a => a

def renderAll : List Attr → List String
  | [] => []
  | a :: rest => render a :: renderAll rest
termination_by structural as => as

end

end Attr

def Attrs.render (attrs : Attrs) : String :=
  "\x7b" ++ ", ".intercalate (attrs.map fun (key, value) => key ++ "=" ++ value.render) ++ "\x7d"

namespace Head

/-- What is printed before the regions. -/
def opening (h : Head) : String :=
  (if h.results.isEmpty then "" else ", ".intercalate (h.results.map ValueId.text) ++ " = ") ++
    "\"" ++ h.opcode ++ "\"(" ++ ", ".intercalate (h.args.map ValueId.text) ++ ")"

/-- The types of the results. A result without a type is of unknown type if none has one. -/
def resultText (h : Head) : String :=
  if h.results.isEmpty then "()"
  else
    ", ".intercalate <|
      if h.resultTypes.isEmpty then h.results.map fun _ => Ty.unknown.render
      else h.resultTypes.map Ty.render

/-- What is printed after the regions. -/
def closing (h : Head) : String :=
  (if h.attrs.isEmpty then "" else " " ++ h.attrs.render) ++
    " : (" ++ ", ".intercalate (h.argTypes.map Ty.render) ++ ") -> " ++ h.resultText

end Head

def Label.render (l : Label) : String :=
  l.name ++ "(" ++ ", ".intercalate (l.params.map fun (v, t) => v.text ++ ": " ++ t.render) ++ "):"

namespace Operator

/-- The indentation of one level. -/
def step : String := "    "

/-- Regions in parentheses, nothing when there are none. -/
def enclosed (regions : List String) : String :=
  if regions.isEmpty then "" else " (" ++ ", ".intercalate regions ++ ")"

mutual

/-- An operator with its first line indented. -/
def renderAt (indent : String) : Operator → String
  | mk head regions =>
    indent ++ head.opening ++ enclosed (renderRegions indent regions) ++ head.closing
termination_by structural o => o

def renderRegions (indent : String) : List Region → List String
  | [] => []
  | .mk blocks :: rest =>
    ("\x7b\n" ++ renderBlocks indent blocks ++ indent ++ "\x7d") :: renderRegions indent rest
termination_by structural rs => rs

def renderBlocks (indent : String) : List Block → String
  | [] => ""
  | .mk label items :: rest =>
    (match label with
    | some l => indent ++ l.render ++ "\n"
    | none => "") ++ renderItems (indent ++ step) items ++ renderBlocks indent rest
termination_by structural bs => bs

def renderItems (indent : String) : List Operator → String
  | [] => ""
  | op :: rest => renderAt indent op ++ "\n" ++ renderItems indent rest
termination_by structural os => os

end

/-- The text of an operator. -/
def render (op : Operator) : String := renderAt "" op

end Operator

end RegionIR
