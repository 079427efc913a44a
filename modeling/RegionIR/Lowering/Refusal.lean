import RegionIR.Diagnostic
import RegionIR.Lowering.State
/-!
# Refusals

Lowering stops at the first construct that it does not support. The state it had reached stays
available, and with it the journal.
-/
namespace RegionIR

/-- The two loops. -/
inductive LoopKind where
  | forLoop
  | whileLoop
  deriving DecidableEq

/-- Constructs that lowering does not support. Node kinds are given by their grammar names. -/
inductive Construct where
  | sourceUnit (kind : String)
  | statement (kind : String)
  | expression (kind : String)
  | shortBoolOp
  | unevenCompare
  | starredArgument
  | keywordUnpacking
  | loopElse (loop : LoopKind)
  | forTarget (kind : String)
  | targetCount (count : Nat)
  | assignTarget (kind : String)
  | augTarget (kind : String)
  | annTarget (kind : String)
  | posOnlyParam
  | variadicParam (name : String)
  | keywordOnlyParam
  | keywordVariadicParam (name : String)
  | defaultValue
  deriving DecidableEq

def Construct.text : Construct → String
  | sourceUnit kind => s!"{kind} source unit"
  | statement kind => s!"{kind} statement"
  | expression kind => s!"{kind} expression"
  | shortBoolOp => "BoolOp with fewer than two operands"
  | unevenCompare => "Compare with mismatched operators and operands"
  | starredArgument => "starred call argument"
  | keywordUnpacking => "keyword unpacking in call"
  | loopElse .forLoop => "else clause on for loop"
  | loopElse .whileLoop => "else clause on while loop"
  | forTarget kind => s!"for loop over {kind} target"
  | targetCount count => s!"assignment with {count} targets"
  | assignTarget kind => s!"assignment to {kind} target"
  | augTarget kind => s!"augmented assignment to {kind} target"
  | annTarget kind => s!"annotated assignment to {kind} target"
  | posOnlyParam => "positional-only parameter"
  | variadicParam name => s!"variadic parameter *{name}"
  | keywordOnlyParam => "keyword-only parameter"
  | keywordVariadicParam name => s!"keyword-variadic parameter **{name}"
  | defaultValue => "parameter default value"

/-- An unsupported construct and the place it stands at. -/
structure Refusal where
  construct : Construct
  span : Option Span
  deriving DecidableEq

def Refusal.diagnostic (r : Refusal) : Diagnostic := .unsupported r.construct.text r.span

/-- How lowering can fail. Leaving a block that is not the current one is a fault of the caller. -/
inductive LowerError where
  | refused (r : Refusal)
  | misnested (block : Nat)
  deriving DecidableEq

def LowerError.diagnostic : LowerError → Diagnostic
  | refused r => r.diagnostic
  | misnested _ =>
    { message := "insertion points left out of order", issuer := "hlir.lower", level := .critical }

/-- A step of lowering. -/
abbrev Lower := EStateM LowerError State

namespace Lower

def refuse {α : Type} (construct : Construct) (span : Option Span) : Lower α :=
  throw (.refused ⟨construct, span⟩)

/-- A step that always succeeds. -/
def step {α : Type} (f : State → α × State) : Lower α := modifyGet f

def enter : Lower Nat := step fun s => (s.blocks.length, s.enter)

def leave (block : Nat) : Lower Unit := do
  match (← get).leave? block with
  | some s => set s
  | none => throw (.misnested block)

def emit (op : Staged) : Lower Unit := modify (·.emit op)

/-- Runs a step inside a new block. The result is the number of the block with that of the step. -/
def inBlock {α : Type} (body : Nat → Lower α) : Lower (Nat × α) := do
  let block ← enter
  let a ← body block
  leave block
  return (block, a)

end Lower

end RegionIR
