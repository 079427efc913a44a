/-!
# Operators of the source language

The four families of operator symbols that occur in expressions. Each symbol has the name under which
a tree spells it, the name recorded by lowering, and its written form.
-/
namespace RegionIR

inductive BoolOperator where
  | and
  | or
  deriving DecidableEq

inductive BinaryOperator where
  | add
  | sub
  | mult
  | matMult
  | div
  | mod
  | pow
  | lShift
  | rShift
  | bitOr
  | bitXor
  | bitAnd
  | floorDiv
  deriving DecidableEq

inductive CmpOperator where
  | eq
  | notEq
  | lt
  | ltE
  | gt
  | gtE
  | same
  | notSame
  | member
  | notMember
  deriving DecidableEq

inductive UnaryOperator where
  | invert
  | not
  | plus
  | minus
  deriving DecidableEq

namespace BoolOperator

def all : List BoolOperator := [and, or]

/-- The name in a source tree. -/
def tag : BoolOperator → String
  | and => "And"
  | or => "Or"

/-- The name recorded in the intermediate form. -/
def name : BoolOperator → String
  | and => "and"
  | or => "or"

/-- The written form. -/
def symbol : BoolOperator → String := name

end BoolOperator

namespace BinaryOperator

def all : List BinaryOperator :=
  [add, sub, mult, matMult, div, mod, pow, lShift, rShift, bitOr, bitXor, bitAnd, floorDiv]

/-- The name in a source tree. -/
def tag : BinaryOperator → String
  | add => "Add"
  | sub => "Sub"
  | mult => "Mult"
  | matMult => "MatMult"
  | div => "Div"
  | mod => "Mod"
  | pow => "Pow"
  | lShift => "LShift"
  | rShift => "RShift"
  | bitOr => "BitOr"
  | bitXor => "BitXor"
  | bitAnd => "BitAnd"
  | floorDiv => "FloorDiv"

/-- The name recorded in the intermediate form. -/
def name : BinaryOperator → String
  | add => "add"
  | sub => "sub"
  | mult => "mult"
  | matMult => "matmult"
  | div => "div"
  | mod => "mod"
  | pow => "pow"
  | lShift => "lshift"
  | rShift => "rshift"
  | bitOr => "bitor"
  | bitXor => "bitxor"
  | bitAnd => "bitand"
  | floorDiv => "floordiv"

/-- The written form. -/
def symbol : BinaryOperator → String
  | add => "+"
  | sub => "-"
  | mult => "*"
  | matMult => "@"
  | div => "/"
  | mod => "%"
  | pow => "**"
  | lShift => "<<"
  | rShift => ">>"
  | bitOr => "|"
  | bitXor => "^"
  | bitAnd => "&"
  | floorDiv => "//"

end BinaryOperator

namespace CmpOperator

def all : List CmpOperator :=
  [eq, notEq, lt, ltE, gt, gtE, same, notSame, member, notMember]

/-- The name in a source tree. -/
def tag : CmpOperator → String
  | eq => "Eq"
  | notEq => "NotEq"
  | lt => "Lt"
  | ltE => "LtE"
  | gt => "Gt"
  | gtE => "GtE"
  | same => "Is"
  | notSame => "IsNot"
  | member => "In"
  | notMember => "NotIn"

/-- The name recorded in the intermediate form. -/
def name : CmpOperator → String
  | eq => "eq"
  | notEq => "noteq"
  | lt => "lt"
  | ltE => "lte"
  | gt => "gt"
  | gtE => "gte"
  | same => "is"
  | notSame => "isnot"
  | member => "in"
  | notMember => "notin"

/-- The written form. -/
def symbol : CmpOperator → String
  | eq => "=="
  | notEq => "!="
  | lt => "<"
  | ltE => "<="
  | gt => ">"
  | gtE => ">="
  | same => "is"
  | notSame => "is not"
  | member => "in"
  | notMember => "not in"

end CmpOperator

namespace UnaryOperator

def all : List UnaryOperator := [invert, not, plus, minus]

/-- The name in a source tree. -/
def tag : UnaryOperator → String
  | invert => "Invert"
  | not => "Not"
  | plus => "UAdd"
  | minus => "USub"

/-- The name recorded in the intermediate form. -/
def name : UnaryOperator → String
  | invert => "invert"
  | not => "not"
  | plus => "uadd"
  | minus => "usub"

/-- The written form, with the space that separates a word from its operand. -/
def symbol : UnaryOperator → String
  | invert => "~"
  | not => "not "
  | plus => "+"
  | minus => "-"

end UnaryOperator

end RegionIR
