import RegionIR.Decimal.Layout
import RegionIR.Outline
import RegionIR.Text
import RegionIR.Tree.Basic
/-!
# Outlines of source trees

How a tree and its parts are shown in dumps.
-/
namespace RegionIR

namespace Outline

def text (s : String) : Outline := .atom (Text.quoted s)

def float (x : Binary64) : Outline := .atom (Decimal.Layout.literal.text x)

end Outline

def Location.outline (l : Location) : Outline :=
  .record "Location" [("line", .atom (toString l.line)), ("column", .atom (toString l.column))]

def Span.outline (s : Span) : Outline :=
  .record "Span" [("start", s.start.outline), ("end", s.stop.outline)]

def Literal.outline : Literal → Outline
  | none => .atom "None"
  | bool b => .tuple "Bool" [.atom (toString b)]
  | int n => .tuple "Int" [.atom (toString n)]
  | bigInt digits => .tuple "BigInt" [.text digits]
  | float x => .tuple "Float" [.float x]
  | text s => .tuple "Str" [.text s]

namespace Expr

/-- The outline of a node from that of its form. -/
def node (form : Outline) (span : Option Span) : Outline :=
  .record "Expr" [("kind", form), ("span", .option (span.map Span.outline))]

mutual

def outline : Expr → Outline
  | mk form span => node (outlineForm form) span
termination_by structural e => e

def outlineForm : ExprForm → Outline
  | .boolOp op values =>
    .record "BoolOp" [("op", .atom op.tag), ("values", .list (outlineAll values))]
  | .binOp left op right =>
    .record "BinOp" [("left", outline left), ("op", .atom op.tag), ("right", outline right)]
  | .unaryOp op operand =>
    .record "UnaryOp" [("op", .atom op.tag), ("operand", outline operand)]
  | .compare left ops comparators =>
    .record "Compare" [("left", outline left), ("ops", .list (ops.map fun op => .atom op.tag)),
      ("comparators", .list (outlineAll comparators))]
  | .call func args keywords =>
    .record "Call" [("func", outline func), ("args", .list (outlineAll args)),
      ("keywords", .list (outlineKeywords keywords))]
  | .constant value kind =>
    .record "Constant" [("value", value.outline), ("kind", .option (kind.map Outline.text))]
  | .attr value name => .record "Attribute" [("value", outline value), ("attr", .text name)]
  | .subscript value slice =>
    .record "Subscript" [("value", outline value), ("slice", outline slice)]
  | .starred value => .record "Starred" [("value", outline value)]
  | .name id => .record "Name" [("id", .text id)]
  | .list elts => .record "List" [("elts", .list (outlineAll elts))]
  | .tuple elts => .record "Tuple" [("elts", .list (outlineAll elts))]
  | .index value => .record "Index" [("value", outline value)]
  | .bare kind => .atom kind.kind
termination_by structural f => f

def outlineAll : List Expr → List Outline
  | [] => []
  | e :: rest => outline e :: outlineAll rest
termination_by structural es => es

def outlineKeywords : List Keyword → List Outline
  | [] => []
  | .mk arg value :: rest =>
    .record "Keyword" [("arg", .option (arg.map Outline.text)), ("value", outline value)] ::
      outlineKeywords rest
termination_by structural ks => ks

end

end Expr

def Keyword.outline (k : Keyword) : Outline :=
  .record "Keyword" [("arg", .option (k.arg.map Outline.text)), ("value", k.value.outline)]

def Param.outline (p : Param) : Outline :=
  .record "Arg" [("arg", .text p.name), ("annotation", .option (p.annot.map Expr.outline))]

def Params.outline (p : Params) : Outline :=
  .record "Arguments"
    [("posonlyargs", .list (p.posOnly.map Param.outline)),
      ("args", .list (p.plain.map Param.outline)),
      ("vararg", .option (p.variadic.map Param.outline)),
      ("kwonlyargs", .list (p.keywordOnly.map Param.outline)),
      ("kw_defaults", .list (p.keywordDefaults.map fun d => .option (d.map Expr.outline))),
      ("kwarg", .option (p.keywordVariadic.map Param.outline)),
      ("defaults", .list (p.defaults.map Expr.outline))]

namespace Stmt

/-- The outline of a node from that of its form. -/
def node (form : Outline) (span : Option Span) : Outline :=
  .record "Stmt" [("kind", form), ("span", .option (span.map Span.outline))]

mutual

def outline : Stmt → Outline
  | mk form span => node (outlineForm form) span
termination_by structural s => s

def outlineForm : StmtForm → Outline
  | .functionDef name params body decorators returns =>
    .record "FunctionDef" [("name", .text name), ("args", params.outline),
      ("body", .list (outlineAll body)), ("decorator_list", .list (decorators.map Expr.outline)),
      ("returns", .option (returns.map Expr.outline))]
  | .classDef name bases keywords body decorators =>
    .record "ClassDef" [("name", .text name), ("bases", .list (bases.map Expr.outline)),
      ("keywords", .list (keywords.map Keyword.outline)), ("body", .list (outlineAll body)),
      ("decorator_list", .list (decorators.map Expr.outline))]
  | .ret value => .record "Return" [("value", .option (value.map Expr.outline))]
  | .assign targets value =>
    .record "Assign" [("targets", .list (targets.map Expr.outline)), ("value", value.outline)]
  | .augAssign target op value =>
    .record "AugAssign" [("target", target.outline), ("op", .atom op.tag),
      ("value", value.outline)]
  | .annAssign target annot value simple =>
    .record "AnnAssign" [("target", target.outline), ("annotation", annot.outline),
      ("value", .option (value.map Expr.outline)), ("simple", .atom (toString simple))]
  | .forIn target iter body orelse =>
    .record "For" [("target", target.outline), ("iter", iter.outline),
      ("body", .list (outlineAll body)), ("orelse", .list (outlineAll orelse))]
  | .whileDo test body orelse =>
    .record "While" [("test", test.outline), ("body", .list (outlineAll body)),
      ("orelse", .list (outlineAll orelse))]
  | .ifElse test body orelse =>
    .record "If" [("test", test.outline), ("body", .list (outlineAll body)),
      ("orelse", .list (outlineAll orelse))]
  | .expr value => .record "Expr" [("value", value.outline)]
  | .pass => .atom "Pass"
  | .breakLoop => .atom "Break"
  | .continueLoop => .atom "Continue"
  | .bare kind => .atom kind.kind
termination_by structural f => f

def outlineAll : List Stmt → List Outline
  | [] => []
  | s :: rest => outline s :: outlineAll rest
termination_by structural ss => ss

end

end Stmt

def SourceUnit.outline : SourceUnit → Outline
  | module body => .record "Module" [("body", .list (Stmt.outlineAll body))]
  | u => .atom u.kind

end RegionIR
