import RegionIR.Lowering.Annotation
import RegionIR.Lowering.Refusal
import RegionIR.Tree.Written
/-!
# Lowering expressions

An expression is flattened: `Lower.operand` appends the operators that compute it to the current block
and returns the value that holds the result. A name needs no operator unless its variable lives in
memory, and then it is loaded.
-/
namespace RegionIR

/-- A value with its type. -/
abbrev Operand := ValueId × Ty

/-- Reads a variable. A name with no definition in scope stands for itself. -/
def State.read (s : State) (name : String) : Operand × State :=
  let ty := s.typeOf name
  match s.home name with
  | .memory =>
    let (value, s) := s.freshVersion name
    let load := ((Head.py "load").withAttr "name" (.text name)).withResult value ty
    ((value, ty), (s.emit (.ofHead load)).record (.loaded name value))
  | .pending _ value => ((value, ty), s)
  | .undefined => ((.named name, ty), s)

/-- Appends an operator with a fresh result. -/
def State.emitResult (s : State) (h : Head) (ty : Ty) : Operand × State :=
  let (value, s) := s.freshTemp
  ((value, ty), s.emit (.ofHead (h.withResult value ty)))

def boolHead (op : BoolOperator) (left right : Operand) : Head :=
  ((Head.py "boolOp").withAttr "op" (.text op.name)).withArgs [left, right]

def compareHead (op : CmpOperator) (left right : Operand) : Head :=
  ((Head.py "compare").withAttr "op" (.text op.name)).withArgs [left, right]

/-- The texts of named arguments, none of which may unpack a mapping. -/
def namedArguments : List Keyword → Except Refusal (List Attr)
  | [] => .ok []
  | k :: rest =>
    match k.arg with
    | none => .error ⟨.keywordUnpacking, k.value.span⟩
    | some _ => do return .text k.written :: (← namedArguments rest)

def Expr.isStarred : Expr → Bool
  | mk (.starred _) _ => true
  | _ => false

namespace Lower

def read (name : String) : Lower Operand := step (·.read name)

def emitResult (h : Head) (ty : Ty) : Lower Operand := step (·.emitResult h ty)

def ofExcept {α : Type} : Except Refusal α → Lower α
  | .ok a => return a
  | .error r => throw (.refused r)

/-- Compares each operand with the next one. -/
def comparePairs : List CmpOperator → List Operand → Lower (List Operand)
  | op :: ops, left :: right :: more => do
    let result ← emitResult (compareHead op left right) .unknown
    let results ← comparePairs ops (right :: more)
    return result :: results
  | _, _ => return []

/-- Joins values by `and`, from the left. -/
def conjoin (first : Operand) : List Operand → Lower Operand
  | [] => return first
  | next :: rest => do
    let joined ← emitResult (boolHead .and first next) .unknown
    conjoin joined rest

/-- The result of a call has the declared type of the function, if it is called by a name. -/
def callTy (func : Expr) (s : State) : Ty :=
  ((func.dotted?).bind s.declared?).getD .unknown

mutual

/-- Appends what is needed to compute an expression and returns its value. -/
def operand : Expr → Lower Operand
  | .mk form span =>
    match form with
    | .name id => read id
    | .constant value kind =>
      let h := (Head.py "constant").withAttr "value" value.attr
      let h := match kind with
        | some k => h.withAttr "kind" (.text k)
        | none => h
      emitResult h value.ty
    | .binOp left op right => do
      let l ← operand left
      let r ← operand right
      emitResult (((Head.py "binOp").withAttr "op" (.text op.name)).withArgs [l, r]) .unknown
    | .unaryOp op e => do
      let x ← operand e
      emitResult (((Head.py "unaryOp").withAttr "op" (.text op.name)).withArgs [x]) .unknown
    | .boolOp op values =>
      match values with
      | first :: second :: rest => do
        let a ← operand first
        let b ← operand second
        let ab ← emitResult (boolHead op a b) .unknown
        joinAll op ab rest
      | _ => refuse .shortBoolOp span
    | .compare left ops comparators =>
      if ops.isEmpty ∨ ops.length ≠ comparators.length then refuse .unevenCompare span
      else do
        let first ← operand left
        let rest ← operands comparators
        match ← comparePairs ops (first :: rest) with
        | [] => refuse .unevenCompare span
        | result :: more => conjoin result more
    | .call func args keywords => do
      let values ← arguments args
      let h := ((Head.py "call").withAttr "callee" (.text func.written)).withArgs values
      let h ← (if keywords.isEmpty then return h
        else do return h.withAttr "keywords" (.list (← ofExcept (namedArguments keywords))))
      emitResult h (callTy func (← get))
    | other => refuse (.expression other.kind) span
termination_by structural e => e

/-- Folds the remaining operands of a connective into the value of those before them. -/
def joinAll (op : BoolOperator) (joined : Operand) : List Expr → Lower Operand
  | [] => return joined
  | e :: rest => do
    let x ← operand e
    let next ← emitResult (boolHead op joined x) .unknown
    joinAll op next rest
termination_by structural es => es

def operands : List Expr → Lower (List Operand)
  | [] => return []
  | e :: rest => do
    let x ← operand e
    let xs ← operands rest
    return x :: xs
termination_by structural es => es

/-- The positional arguments of a call, none of which may be starred. -/
def arguments : List Expr → Lower (List Operand)
  | [] => return []
  | e :: rest => do
    if e.isStarred then refuse .starredArgument e.span
    let x ← operand e
    let xs ← arguments rest
    return x :: xs
termination_by structural es => es

end

end Lower

end RegionIR
