import RegionIR.Lowering.Operand
/-!
# Binding variables

The first assignment to a variable makes it a value. A second one, or a write that goes to memory in any
case, moves the variable to memory: the value it had is stored at the end of the block that holds its
definition, and from then on it is stored and loaded.
-/
namespace RegionIR

namespace State

/-- Moves a variable to memory. A pending definition is stored in the block that holds it. -/
def promoteToMemory (s : State) (name : String) : State :=
  match s.promote name with
  | (none, s) => s
  | (some (block, value), s) =>
    let store := ((Head.py "store").withAttr "name" (.text name)).withArg value (s.typeOf name)
    s.emitInto block (.ofHead store)

/-- Prepares a variable for a write that goes to memory. -/
def writeThrough (s : State) (name : String) : State :=
  match s.home name with
  | .pending .. => s.promoteToMemory name
  | .undefined => s.markMemory name
  | .memory => s

/-- Declares a type if there is one. -/
def declareIfAny (s : State) (name : String) : Option Ty → State
  | some ty => s.declare name ty
  | none => s

/-- The type of a first definition: the annotation, else the declared type, else that of the value,
which is then declared unless it is unknown. -/
def definitionTy (s : State) (name : String) (valueTy : Ty) (declared : Option Ty) : Ty × State :=
  match declared with
  | some ty => (ty, s.declare name ty)
  | none =>
    match s.declared? name with
    | some ty => (ty, s)
    | none => (valueTy, if valueTy.isUnknown then s else s.declare name valueTy)

/-- Assigns an operand to a variable. The result is the operator that does it, not yet appended. -/
def assign (s : State) (name : String) (value : Operand) (declared : Option Ty) : Head × State :=
  match s.home name with
  | .undefined =>
    let opcode := if declared.isSome then "cast" else "assign"
    let (ty, s) := s.definitionTy name value.2 declared
    let (result, s) := s.freshDefinition name
    (((Head.py opcode).withArgs [value]).withResult result ty, s.define name result)
  | .pending .. =>
    (((Head.py "store").withArgs [value]).withAttr "name" (.text name),
      (s.promoteToMemory name).declareIfAny name declared)
  | .memory =>
    (((Head.py "store").withArgs [value]).withAttr "name" (.text name),
      s.declareIfAny name declared)

end State

/-- Assigns the value of an expression to a variable. -/
def Lower.assignment (name : String) (value : Expr) (declared : Option Ty) : Lower Staged := do
  let x ← operand value
  let h ← step (·.assign name x declared)
  return .ofHead h

end RegionIR
