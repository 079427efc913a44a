/-!
# Outlines

The shape of a piece of data for display: atoms, named records and tuples, lists and tables. An outline
is shown on one line, or with one item a line and four spaces for each level.
-/
namespace RegionIR

inductive Outline where
  | atom (text : String)
  | record (name : String) (fields : List (String × Outline))
  /-- A tuple, with a name in front of it or none. -/
  | tuple (name : String) (items : List Outline)
  | list (items : List Outline)
  | table (entries : List (String × Outline))

namespace Outline

/-- A value that may be missing. -/
def option : Option Outline → Outline
  | none => .atom "None"
  | some o => .tuple "Some" [o]

mutual

/-- The outline on one line. -/
def compact : Outline → String
  | atom text => text
  | record name fields => name ++ " \x7b " ++ ", ".intercalate (compactFields fields) ++ " \x7d"
  | tuple name items => name ++ "(" ++ ", ".intercalate (compactItems items) ++ ")"
  | list items => "[" ++ ", ".intercalate (compactItems items) ++ "]"
  | table entries => "\x7b" ++ ", ".intercalate (compactFields entries) ++ "\x7d"
termination_by structural o => o

def compactItems : List Outline → List String
  | [] => []
  | o :: rest => compact o :: compactItems rest
termination_by structural os => os

def compactFields : List (String × Outline) → List String
  | [] => []
  | (name, o) :: rest => (name ++ ": " ++ compact o) :: compactFields rest
termination_by structural fs => fs

end

/-- One level of indentation. -/
def step : String := "    "

/-- Lines between an opening and a closing bracket; without lines the brackets stand together. -/
def bracketed (indent opening closing : String) (lines : List String) : String :=
  if lines.isEmpty then opening ++ closing
  else opening ++ "\n" ++ String.join lines ++ indent ++ closing

mutual

/-- The outline over several lines, the first one not indented. -/
def indented (indent : String) : Outline → String
  | atom text => text
  | record name fields =>
    bracketed indent (name ++ " \x7b") "\x7d" (indentedFields (indent ++ step) fields)
  | tuple name items => bracketed indent (name ++ "(") ")" (indentedItems (indent ++ step) items)
  | list items => bracketed indent "[" "]" (indentedItems (indent ++ step) items)
  | table entries =>
    bracketed indent "\x7b" "\x7d" (indentedFields (indent ++ step) entries)
termination_by structural o => o

def indentedItems (indent : String) : List Outline → List String
  | [] => []
  | o :: rest => (indent ++ indented indent o ++ ",\n") :: indentedItems indent rest
termination_by structural os => os

def indentedFields (indent : String) : List (String × Outline) → List String
  | [] => []
  | (name, o) :: rest =>
    (indent ++ name ++ ": " ++ indented indent o ++ ",\n") :: indentedFields indent rest
termination_by structural fs => fs

end

/-- The outline over several lines. -/
def pretty (o : Outline) : String := indented "" o

end Outline

end RegionIR
