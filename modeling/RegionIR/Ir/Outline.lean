import RegionIR.Ir.Basic
import RegionIR.Tree.Outline
/-!
# Outlines of the intermediate form

How operators are shown in dumps.
-/
namespace RegionIR

def ValueId.outline (v : ValueId) : Outline := .tuple "ValueId" [.text v.text]

def Dialect.outline : Dialect → Outline
  | builtin => .atom "Builtin"
  | py => .atom "Py"

namespace Ty

mutual

def outline : Ty → Outline
  | unit => .atom "Unit"
  | named name => .tuple "Named" [.text name]
  | generic ctor args =>
    .record "Generic" [("ctor", .text ctor), ("args", .list (outlineAll args))]
  | unknown => .atom "Unknown"
termination_by structural t => t

def outlineAll : List Ty → List Outline
  | [] => []
  | t :: rest => outline t :: outlineAll rest
termination_by structural ts => ts

end

end Ty

namespace Attr

mutual

def outline : Attr → Outline
  | text s => .tuple "Str" [.text s]
  | int n => .tuple "Int" [.atom (toString n)]
  | bigInt digits => .tuple "BigInt" [.text digits]
  | float x => .tuple "Float" [.float x]
  | bool b => .tuple "Bool" [.atom (toString b)]
  | unit => .atom "Unit"
  | list items => .tuple "List" [.list (outlineAll items)]
  | functionType params result =>
    .tuple "FunctionType"
      [.record "FunctionTypeAttr"
        [("types", .list (params.map Ty.outline)), ("returns", result.outline)]]
termination_by structural a => a

def outlineAll : List Attr → List Outline
  | [] => []
  | a :: rest => outline a :: outlineAll rest
termination_by structural as => as

end

end Attr

def Attrs.outline (attrs : Attrs) : Outline :=
  .table (attrs.map fun (key, value) => (Text.quoted key, value.outline))

def Label.outline (l : Label) : Outline :=
  .record "BlockLabel"
    [("name", .text l.name),
      ("params", .list (l.params.map fun (v, t) => .tuple "" [v.outline, t.outline]))]

namespace Operator

/-- The outline of an operator from those of its regions. -/
def node (h : Head) (regions : List Outline) : Outline :=
  .record "Operator"
    [("name", .text h.name), ("dialect", h.dialect.outline),
      ("return_names", .list (h.results.map ValueId.outline)),
      ("return_types", .list (h.resultTypes.map Ty.outline)),
      ("arguments", .list (h.args.map ValueId.outline)),
      ("argument_types", .list (h.argTypes.map Ty.outline)),
      ("attributes", h.attrs.outline), ("regions", .list regions)]

mutual

def outline : Operator → Outline
  | mk head regions => node head (outlineRegions regions)
termination_by structural o => o

def outlineRegions : List Region → List Outline
  | [] => []
  | .mk blocks :: rest =>
    .record "Region" [("blocks", .list (outlineBlocks blocks))] :: outlineRegions rest
termination_by structural rs => rs

def outlineBlocks : List Block → List Outline
  | [] => []
  | .mk label items :: rest =>
    .record "Block" [("items", .list (outlineAll items)),
      ("label", .option (label.map Label.outline))] :: outlineBlocks rest
termination_by structural bs => bs

def outlineAll : List Operator → List Outline
  | [] => []
  | op :: rest => outline op :: outlineAll rest
termination_by structural os => os

end

end Operator

end RegionIR
