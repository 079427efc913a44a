import RegionIR.Tree.Basic
/-!
# Building source trees

Short forms for the nodes that are built by hand most often. They carry no span until they are given
one.
-/
namespace RegionIR

namespace Expr

def ofForm (form : ExprForm) : Expr := .mk form none

def withSpan (e : Expr) (span : Span) : Expr := .mk e.form (some span)

def ofName (id : String) : Expr := ofForm (.name id)

def ofLiteral (value : Literal) : Expr := ofForm (.constant value none)

def ofInt (n : Int) : Expr := ofLiteral (.int n)

def ofText (s : String) : Expr := ofLiteral (.text s)

def binOp (left : Expr) (op : BinaryOperator) (right : Expr) : Expr := ofForm (.binOp left op right)

def call (func : Expr) (args : List Expr) (keywords : List Keyword) : Expr :=
  ofForm (.call func args keywords)

def attr (value : Expr) (name : String) : Expr := ofForm (.attr value name)

def subscript (value slice : Expr) : Expr := ofForm (.subscript value slice)

def tuple (elts : List Expr) : Expr := ofForm (.tuple elts)

end Expr

/-- An argument with a name. -/
def Keyword.named (name : String) (value : Expr) : Keyword := .mk (some name) value

namespace Stmt

def ofForm (form : StmtForm) : Stmt := .mk form none

def withSpan (s : Stmt) (span : Span) : Stmt := .mk s.form (some span)

/-- Assigns to one name. -/
def assign (target : String) (value : Expr) : Stmt := ofForm (.assign [.ofName target] value)

/-- Assigns to one annotated name. -/
def annAssign (target : String) (annot : Expr) (value : Option Expr) : Stmt :=
  ofForm (.annAssign (.ofName target) annot value 1)

def augAssign (target : String) (op : BinaryOperator) (value : Expr) : Stmt :=
  ofForm (.augAssign (.ofName target) op value)

def ret (value : Option Expr) : Stmt := ofForm (.ret value)

def expr (value : Expr) : Stmt := ofForm (.expr value)

/-- A function with plain parameters. -/
def function (name : String) (params : List Param) (returns : Option Expr) (body : List Stmt) :
    Stmt :=
  ofForm (.functionDef name { plain := params } body [] returns)

def ifElse (test : Expr) (body orelse : List Stmt) : Stmt := ofForm (.ifElse test body orelse)

def whileDo (test : Expr) (body : List Stmt) : Stmt := ofForm (.whileDo test body [])

/-- A loop over one name. -/
def forIn (target : String) (iter : Expr) (body : List Stmt) : Stmt :=
  ofForm (.forIn (.ofName target) iter body [])

end Stmt

end RegionIR
