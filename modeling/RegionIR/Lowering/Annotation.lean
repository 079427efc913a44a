import RegionIR.Ir.Basic
import RegionIR.Tree.Basic
/-!
# Types named by annotations and literals

An annotation names a type if it is a name, a dotted name, a subscripted one, `None`, or a text that
stands for a name. Any other expression leaves the type unknown. A subscript may come wrapped in an
index node, which changes nothing.
-/
namespace RegionIR

namespace Expr

mutual

/-- The type that an annotation names. -/
def annotatedTy : Expr → Ty
  | mk form _ => formTy form
termination_by structural e => e

def formTy : ExprForm → Ty
  | .constant .none _ => .unit
  | .constant (.text s) _ => .named s
  | .subscript value slice =>
    match value.dotted? with
    | some ctor => .generic ctor (typeArgs slice)
    | none => .unknown
  | .name id => .named id
  | .attr value name =>
    match value.dotted? with
    | some base => .named s!"{base}.{name}"
    | none => .unknown
  | _ => .unknown
termination_by structural f => f

/-- The type arguments in a subscript: those of a tuple, or a single one. -/
def typeArgs : Expr → List Ty
  | mk (.index value) _ => typeArgs value
  | mk (.tuple elts) _ => annotatedTys elts
  | mk form _ => [formTy form]
termination_by structural e => e

def annotatedTys : List Expr → List Ty
  | [] => []
  | e :: rest => annotatedTy e :: annotatedTys rest
termination_by structural es => es

end

end Expr

/-- The type of an optional annotation; a missing one is unknown. -/
def annotatedTy? (annot : Option Expr) : Ty :=
  (annot.map Expr.annotatedTy).getD .unknown

/-- The type of a literal. -/
def Literal.ty : Literal → Ty
  | none => .named "NoneType"
  | bool _ => .named "bool"
  | int _ => .named "int"
  | bigInt _ => .named "int"
  | float _ => .named "float"
  | text _ => .named "str"

/-- The attribute that records a literal. -/
def Literal.attr : Literal → Attr
  | none => .unit
  | bool b => .bool b
  | int n => .int n
  | bigInt digits => .bigInt digits
  | float x => .float x
  | text s => .text s

end RegionIR
