import RegionIR.Binary64
import RegionIR.Tree.Operators
/-!
# Source trees

The abstract syntax of a program as it comes out of a parser. The grammar is complete: the kinds that
lowering never looks into are kept by name alone (`BareExpr`, `BareStmt`), so that a refused node can
still be named. Nodes carry the span of the text they stand for, if the tree came with positions.
-/
namespace RegionIR

/-- A line, counted from one, and a byte offset into it. -/
structure Location where
  line : Nat
  column : Nat
  deriving DecidableEq, Inhabited

def Location.text (l : Location) : String := s!"{l.line}:{l.column}"

structure Span where
  start : Location
  stop : Location
  deriving DecidableEq, Inhabited

namespace Span

def text (s : Span) : String := s!"{s.start.text} - {s.stop.text}"

/-- The span of the four optional positions of a node. Without a first line there is none; a missing
first column is zero, and missing ends are those of the start. -/
def ofPositions? (line column endLine endColumn : Option Nat) : Option Span :=
  line.map fun l =>
    let c := column.getD 0
    ⟨⟨l, c⟩, ⟨endLine.getD l, endColumn.getD c⟩⟩

end Span

/-- The payload of a literal. Integers that do not fit 64 signed bits are kept as their digits. -/
inductive Literal where
  | none
  | bool (b : Bool)
  | int (n : Int)
  | bigInt (digits : String)
  | float (x : Binary64)
  | text (s : String)
  deriving DecidableEq

/-- Expression kinds of which only the name is known. -/
inductive BareExpr where
  | namedExpr
  | lambda
  | ifExp
  | dict
  | set
  | listComp
  | setComp
  | dictComp
  | generatorExp
  | await
  | yield
  | yieldFrom
  | formattedValue
  | joinedStr
  | slice
  deriving DecidableEq

/-- Statement kinds of which only the name is known. -/
inductive BareStmt where
  | asyncFunctionDef
  | delete
  | typeAlias
  | asyncFor
  | withBlock
  | asyncWith
  | matchCases
  | raise
  | tryBlock
  | tryStar
  | assert
  | importModule
  | importFrom
  | globalNames
  | nonlocalNames
  deriving DecidableEq

mutual

/-- An expression with the place it stands at. -/
inductive Expr where
  | mk (form : ExprForm) (span : Option Span)

inductive ExprForm where
  | boolOp (op : BoolOperator) (values : List Expr)
  | binOp (left : Expr) (op : BinaryOperator) (right : Expr)
  | unaryOp (op : UnaryOperator) (operand : Expr)
  | compare (left : Expr) (ops : List CmpOperator) (comparators : List Expr)
  | call (func : Expr) (args : List Expr) (keywords : List Keyword)
  | constant (value : Literal) (kind : Option String)
  | attr (value : Expr) (name : String)
  | subscript (value slice : Expr)
  | starred (value : Expr)
  | name (id : String)
  | list (elts : List Expr)
  | tuple (elts : List Expr)
  | index (value : Expr)
  | bare (kind : BareExpr)

/-- A named argument at a call or in a class header; without a name it unpacks a mapping. -/
inductive Keyword where
  | mk (arg : Option String) (value : Expr)

end

instance : Inhabited Expr := ⟨.mk (.name "") none⟩

instance : Inhabited Keyword := ⟨.mk none default⟩

def Expr.form : Expr → ExprForm
  | mk form _ => form

def Expr.span : Expr → Option Span
  | mk _ span => span

def Keyword.arg : Keyword → Option String
  | mk arg _ => arg

def Keyword.value : Keyword → Expr
  | mk _ value => value

/-- One formal parameter. -/
structure Param where
  name : String
  annot : Option Expr

/-- The formal parameters of a function by the way they are passed, with the default values. -/
structure Params where
  posOnly : List Param := []
  plain : List Param := []
  variadic : Option Param := none
  keywordOnly : List Param := []
  keywordDefaults : List (Option Expr) := []
  keywordVariadic : Option Param := none
  defaults : List Expr := []

mutual

/-- A statement with the place it stands at. -/
inductive Stmt where
  | mk (form : StmtForm) (span : Option Span)

inductive StmtForm where
  | functionDef (name : String) (params : Params) (body : List Stmt) (decorators : List Expr)
      (returns : Option Expr)
  | classDef (name : String) (bases : List Expr) (keywords : List Keyword) (body : List Stmt)
      (decorators : List Expr)
  | ret (value : Option Expr)
  | assign (targets : List Expr) (value : Expr)
  | augAssign (target : Expr) (op : BinaryOperator) (value : Expr)
  | annAssign (target annot : Expr) (value : Option Expr) (simple : UInt8)
  | forIn (target iter : Expr) (body orelse : List Stmt)
  | whileDo (test : Expr) (body orelse : List Stmt)
  | ifElse (test : Expr) (body orelse : List Stmt)
  | expr (value : Expr)
  | pass
  | breakLoop
  | continueLoop
  | bare (kind : BareStmt)

end

instance : Inhabited Stmt := ⟨.mk .pass none⟩

def Stmt.form : Stmt → StmtForm
  | mk form _ => form

def Stmt.span : Stmt → Option Span
  | mk _ span => span

/-- The root of a tree. Only a module has statements. -/
inductive SourceUnit where
  | module (body : List Stmt)
  | interactive
  | expression
  | functionType

namespace BareExpr

def kind : BareExpr → String
  | namedExpr => "NamedExpr"
  | lambda => "Lambda"
  | ifExp => "IfExp"
  | dict => "Dict"
  | set => "Set"
  | listComp => "ListComp"
  | setComp => "SetComp"
  | dictComp => "DictComp"
  | generatorExp => "GeneratorExp"
  | await => "Await"
  | yield => "Yield"
  | yieldFrom => "YieldFrom"
  | formattedValue => "FormattedValue"
  | joinedStr => "JoinedStr"
  | slice => "Slice"

end BareExpr

namespace BareStmt

def kind : BareStmt → String
  | asyncFunctionDef => "AsyncFunctionDef"
  | delete => "Delete"
  | typeAlias => "TypeAlias"
  | asyncFor => "AsyncFor"
  | withBlock => "With"
  | asyncWith => "AsyncWith"
  | matchCases => "Match"
  | raise => "Raise"
  | tryBlock => "Try"
  | tryStar => "TryStar"
  | assert => "Assert"
  | importModule => "Import"
  | importFrom => "ImportFrom"
  | globalNames => "Global"
  | nonlocalNames => "Nonlocal"

end BareStmt

/-- The grammar's name of an expression kind. -/
def ExprForm.kind : ExprForm → String
  | boolOp .. => "BoolOp"
  | binOp .. => "BinOp"
  | unaryOp .. => "UnaryOp"
  | compare .. => "Compare"
  | call .. => "Call"
  | constant .. => "Constant"
  | attr .. => "Attribute"
  | subscript .. => "Subscript"
  | starred .. => "Starred"
  | name .. => "Name"
  | list .. => "List"
  | tuple .. => "Tuple"
  | index .. => "Index"
  | bare k => k.kind

/-- The grammar's name of a statement kind. -/
def StmtForm.kind : StmtForm → String
  | functionDef .. => "FunctionDef"
  | classDef .. => "ClassDef"
  | ret .. => "Return"
  | assign .. => "Assign"
  | augAssign .. => "AugAssign"
  | annAssign .. => "AnnAssign"
  | forIn .. => "For"
  | whileDo .. => "While"
  | ifElse .. => "If"
  | expr .. => "Expr"
  | pass => "Pass"
  | breakLoop => "Break"
  | continueLoop => "Continue"
  | bare k => k.kind

def Expr.kind (e : Expr) : String := e.form.kind

def Stmt.kind (s : Stmt) : String := s.form.kind

/-- The grammar's name of a unit. -/
def SourceUnit.kind : SourceUnit → String
  | module _ => "Module"
  | interactive => "Interactive"
  | expression => "Expression"
  | functionType => "FunctionType"

/-- The statements of a unit; only a module has any. -/
def SourceUnit.body? : SourceUnit → Option (List Stmt)
  | module body => some body
  | _ => none

/-- The identifier of an expression that is a bare name. -/
def Expr.name? : Expr → Option String
  | mk (.name id) _ => some id
  | _ => none

/-- The names of an attribute chain rooted at a name, joined by dots. -/
def Expr.dotted? : Expr → Option String
  | mk (.name id) _ => some id
  | mk (.attr value name) _ => value.dotted?.map fun base => s!"{base}.{name}"
  | _ => none

end RegionIR
