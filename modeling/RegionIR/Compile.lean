import RegionIR.Ir.Printer
import RegionIR.Lowering.Statement
import RegionIR.Schema.Load
/-!
# From a source unit or its JSON text to the intermediate form

A module is lowered to one operator with a single region. The whole way in one step is to load a source
tree, lower it and print the result.
-/
namespace RegionIR

namespace Lower

/-- Lowers the statements of a module to its operator. -/
def module (stmts : List Stmt) : Lower Operator := do
  let slot ← region (body stmts)
  modify (·.record (.lowered stmts.length))
  step fun s =>
    let (op, blocks) := s.blocks.assemble (.ofHead (Head.builtin "module") [slot])
    (op, { s with blocks })

/-- Lowers a source unit; only a module is supported. -/
def sourceUnit (u : SourceUnit) : Lower Operator :=
  match u.body? with
  | some stmts => module stmts
  | none => refuse (.sourceUnit u.kind) none

end Lower

/-- The operator of a source unit, and the journal of its lowering. -/
def SourceUnit.lowerLogged (u : SourceUnit) : Except LowerError Operator × List Event :=
  match (Lower.sourceUnit u).run {} with
  | .ok op s => (.ok op, s.journal)
  | .error e s => (.error e, s.journal)

/-- The operator of a source unit. -/
def SourceUnit.lower (u : SourceUnit) : Except LowerError Operator := u.lowerLogged.1

inductive CompileError where
  | load (e : LoadError)
  | lower (e : LowerError)
  deriving DecidableEq

def CompileError.diagnostic : CompileError → Diagnostic
  | load e => e.diagnostic
  | lower e => e.diagnostic

/-- The operator of a unit that has been loaded. -/
def lowerUnit (u : SourceUnit) : Except CompileError Operator := u.lower.mapError .lower

/-- The operator of the tree that a text spells. -/
def lowerText (text : String) : Except CompileError Operator := do
  lowerUnit (← (SourceUnit.load text).mapError .load)

/-- The journal of compiling a text, and whether it was compiled. -/
def trace (text : String) : List Event × Bool :=
  match SourceUnit.load text with
  | .error _ => ([], false)
  | .ok u =>
    let decoded := match u.body? with
      | some stmts => [Event.decoded stmts.length]
      | none => []
    let (result, journal) := u.lowerLogged
    (decoded ++ journal, result.isOk)

end RegionIR
