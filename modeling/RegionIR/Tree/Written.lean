import RegionIR.Decimal.Layout
import RegionIR.Tree.Basic
/-!
# Expressions as source text

Lowering records some expressions as text instead of lowering them. `Expr.written` is that text.
Operands that are operator expressions themselves stand in parentheses, so the text keeps the grouping
of the tree.
-/
namespace RegionIR

/-- How one character stands inside single quotes. -/
def singleQuotedChar (c : Char) : List Char :=
  if c = '\\' then ['\\', '\\'] else if c = '\'' then ['\\', '\''] else [c]

/-- A text between single quotes, with a backslash before quotes and backslashes. -/
def singleQuoted (s : String) : String :=
  String.ofList ('\'' :: s.toList.flatMap singleQuotedChar ++ ['\''])

def Literal.written : Literal → String
  | none => "None"
  | bool true => "True"
  | bool false => "False"
  | int n => toString n
  | bigInt digits => digits
  | float x => Decimal.Layout.literal.text x
  | text s => singleQuoted s

/-- Whether an expression is put in parentheses where it is an operand. -/
def Expr.isOperation : Expr → Bool
  | mk (.binOp ..) _ | mk (.boolOp ..) _ | mk (.compare ..) _ | mk (.unaryOp ..) _ => true
  | _ => false

def parenthesized (grouped : Bool) (s : String) : String :=
  if grouped then "(" ++ s ++ ")" else s

/-- Items separated by a comma and a space. -/
def commaSeparated (items : List String) : String := ", ".intercalate items

/-- Operators and their right operands, each pair after the one before it. -/
def writtenChain : List CmpOperator → List String → String
  | op :: ops, operand :: operands => " " ++ op.symbol ++ " " ++ operand ++ writtenChain ops operands
  | _, _ => ""

namespace Expr

mutual

/-- The source text of an expression. Kinds known by name alone show that name. -/
def written : Expr → String
  | mk form _ =>
    match form with
    | .name id => id
    | .constant value _ => value.written
    | .attr value name => parenthesized value.isOperation (written value) ++ "." ++ name
    | .subscript value slice =>
      let whole := fun (_ : Unit) => written slice
      let inner := match slice with
        | mk (.tuple elts) _ => commaSeparated (writtenAll elts)
        | _ => whole ()
      parenthesized value.isOperation (written value) ++ "[" ++ inner ++ "]"
    | .index value => written value
    | .binOp left op right =>
      parenthesized left.isOperation (written left) ++ " " ++ op.symbol ++ " " ++
        parenthesized right.isOperation (written right)
    | .boolOp op values => (" " ++ op.symbol ++ " ").intercalate (writtenOperands values)
    | .compare left ops comparators =>
      parenthesized left.isOperation (written left) ++
        writtenChain ops (writtenOperands comparators)
    | .unaryOp op operand => op.symbol ++ parenthesized operand.isOperation (written operand)
    | .call func args keywords =>
      parenthesized func.isOperation (written func) ++ "(" ++
        commaSeparated (writtenAll args ++ writtenKeywords keywords) ++ ")"
    | .starred value => "*" ++ written value
    | .list elts => "[" ++ commaSeparated (writtenAll elts) ++ "]"
    | .tuple elts =>
      "(" ++ commaSeparated (writtenAll elts) ++ (if elts.length = 1 then "," else "") ++ ")"
    | .bare kind => "<" ++ kind.kind ++ ">"
termination_by structural e => e

def writtenAll : List Expr → List String
  | [] => []
  | e :: rest => written e :: writtenAll rest
termination_by structural es => es

/-- The texts of operands, in parentheses where they need them. -/
def writtenOperands : List Expr → List String
  | [] => []
  | e :: rest => parenthesized e.isOperation (written e) :: writtenOperands rest
termination_by structural es => es

def writtenKeywords : List Keyword → List String
  | [] => []
  | .mk (some name) value :: rest => (name ++ "=" ++ written value) :: writtenKeywords rest
  | .mk none value :: rest => ("**" ++ written value) :: writtenKeywords rest
termination_by structural ks => ks

end

end Expr

/-- The source text of a named argument. -/
def Keyword.written : Keyword → String
  | mk (some name) value => name ++ "=" ++ value.written
  | mk none value => "**" ++ value.written

end RegionIR
