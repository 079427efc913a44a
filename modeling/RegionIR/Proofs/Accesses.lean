import RegionIR.Proofs.Flat
/-!
# What a program does to its variables

The accesses of a program to its variables, in the order of lowering. All that lowering decides about
a variable, and where its values can be seen, depends on them alone.
-/
namespace RegionIR

/-- An access to a variable, or a part of a program with accesses of its own. -/
inductive Act where
  /-- The variable is read as an operand. -/
  | read (name : String)
  /-- An assignment. -/
  | bind (name : String)
  /-- A write that goes to memory in any case: an augmented assignment, or a loop target. -/
  | touch (name : String)
  /-- A block of its own, in the same scope. -/
  | nest (acts : List Act)
  /-- A function, which has a scope of its own. -/
  | function (params : List String) (acts : List Act)

/-- An access to a variable of one scope. -/
inductive Access where
  | read (name : String)
  | bind (name : String)
  | touch (name : String)
  deriving DecidableEq

namespace Act

mutual

/-- The accesses to the variables of the scope that an act stands in. -/
def accesses : Act → List Access
  | read name => [.read name]
  | bind name => [.bind name]
  | touch name => [.touch name]
  | nest acts => accessesAll acts
  | function _ _ => []
termination_by structural a => a

def accessesAll : List Act → List Access
  | [] => []
  | a :: rest => accesses a ++ accessesAll rest
termination_by structural as => as

end

theorem accessesAll_append (as bs : List Act) :
    accessesAll (as ++ bs) = accessesAll as ++ accessesAll bs := by
  induction as with
  | nil => rfl
  | cons a as ih => rw [List.cons_append, accessesAll, accessesAll, ih, List.append_assoc]

theorem accessesAll_reads (names : List String) :
    accessesAll (names.map .read) = names.map Access.read := by
  induction names with
  | nil => rfl
  | cons name names ih => rw [List.map_cons, accessesAll, ih, accesses]; rfl

mutual

def names : Act → List String
  | read name => [name]
  | bind name => [name]
  | touch name => [name]
  | nest acts => namesAll acts
  | function params acts => params ++ namesAll acts
termination_by structural a => a

def namesAll : List Act → List String
  | [] => []
  | a :: rest => names a ++ namesAll rest
termination_by structural as => as

end

theorem namesAll_append (as bs : List Act) : namesAll (as ++ bs) = namesAll as ++ namesAll bs := by
  induction as with
  | nil => rfl
  | cons a as ih => rw [List.cons_append, namesAll, namesAll, ih, List.append_assoc]

theorem namesAll_reads (names : List String) : namesAll (names.map .read) = names := by
  induction names with
  | nil => rfl
  | cons name rest ih =>
    rw [List.map_cons, namesAll, ih, Act.names]
    rfl

end Act

def Params.names (p : Params) : List String := p.plain.map Param.name

namespace Stmt

mutual

/-- The accesses of a statement. An annotated assignment with a value is one only if the innermost
definition around it is a function. -/
def acts (inFunction : Bool) : Stmt → List Act
  | mk form _ =>
    match form with
    | .functionDef _ params body _ _ => [.function params.names (actsAll true body)]
    | .classDef _ _ _ body _ => [.nest (actsAll false body)]
    | .ret value => (Expr.readsAll value.toList).map .read
    | .assign targets value =>
      value.reads.map .read ++ (targets.filterMap Expr.name?).map .bind
    | .augAssign target _ value => value.reads.map .read ++ target.name?.toList.map .touch
    | .annAssign target _ value _ =>
      (Expr.readsAll value.toList).map .read ++
        (if inFunction ∧ value.isSome then target.name?.toList.map .bind else [])
    | .forIn target iter body _ =>
      .nest (iter.reads.map .read) :: target.name?.toList.map .touch ++
        [.nest (actsAll inFunction body)]
    | .whileDo test body _ => [.nest (test.reads.map .read), .nest (actsAll inFunction body)]
    | .ifElse test yes no =>
      test.reads.map .read ++ .nest (actsAll inFunction yes) ::
        (if no.isEmpty then [] else [.nest (actsAll inFunction no)])
    | .expr value => value.reads.map .read
    | _ => []
termination_by structural s => s

def actsAll (inFunction : Bool) : List Stmt → List Act
  | [] => []
  | s :: rest => acts inFunction s ++ actsAll inFunction rest
termination_by structural ss => ss

end

end Stmt

end RegionIR
