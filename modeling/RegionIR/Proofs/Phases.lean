import RegionIR.Proofs.Promotion
/-!
# How far the variables of a scope have come

The phases of all variables at once, as a program goes on. They depend on the accesses alone, so they are
read off the source, and at the end of a scope the variables that have moved are those in memory.
-/
namespace RegionIR

def Stmt.accessesAll (inFunction : Bool) (stmts : List Stmt) : List Access :=
  Act.accessesAll (actsAll inFunction stmts)

theorem Stmt.accessesAll_single (inFunction : Bool) (st : Stmt) :
    accessesAll inFunction [st] = Act.accessesAll (acts inFunction st) := by
  rw [accessesAll, actsAll, actsAll, List.append_nil]

namespace Phase

/-- How far each variable has come after accesses. -/
def after (phase : String → Phase) (accs : List Access) (a : String) : Phase :=
  accs.foldl (step a) (phase a)

/-- At the start of a scope only its parameters are bound. -/
def atEntry (params : List String) (a : String) : Phase := if a ∈ params then .bound else .unbound

end Phase

def State.phases (s : State) (a : String) : Phase := (s.home a).phase

theorem State.phases_eq_moved {s : State} {a : String} : s.phases a = .moved ↔ s.home a = .memory := by
  unfold phases
  cases s.home a <;> simp [Home.phase]

theorem Grows.phases_eq {Z : List String} {s s' : State} {stmts : List Stmt} {ops : List Operator}
    (grows : Grows Z s stmts s' ops) (placed : s.Placed) (moved : ∀ a, s'.home a = .memory → a ∈ Z) :
    s'.phases = Phase.after s.phases (Stmt.accessesAll s.inFunction stmts) := by
  funext a
  exact (grows.tally placed a (moved a)).1.phase

/-- The phases between statements and those that follow them. -/
theorem Grows.phases_between {Z : List String} {s t s' : State} {stmts others : List Stmt}
    {ops more : List Operator} (first : Grows Z s stmts t ops) (later : Grows Z t others s' more)
    (placed : s.Placed) (moved : ∀ a, s'.home a = .memory → a ∈ Z) :
    t.phases = Phase.after s.phases (Stmt.accessesAll s.inFunction stmts) :=
  first.phases_eq placed fun a h => moved a (later.lowers.extension.memory a h)

theorem Grows.phases_region {Z : List String} {s t u s' : State} {stmts : List Stmt}
    {bodies : List (List Stmt)} {slots : List Slot} {ops : List Operator} {regions : List Region}
    (inner : Grows Z s.enter stmts t ops) (left : Left t s.blocks.length u)
    (rest : GrowsBodies Z u bodies slots s' regions) (placed : s.Placed)
    (moved : ∀ a, s'.home a = .memory → a ∈ Z) : (∀ a, t.home a = .memory → a ∈ Z) ∧
      u.phases = Phase.after s.phases (Stmt.accessesAll s.inFunction stmts) := by
  have hmoved : ∀ a, t.home a = .memory → a ∈ Z := by
    intro a h
    apply moved a (rest.lowers.extension.memory a _)
    rw [left.home, h]
  refine ⟨hmoved, ?_⟩
  funext a
  rw [State.phases, left.home]
  exact congrFun (inner.phases_eq placed.enter hmoved) a

theorem Binds.phases_entry {s t : State} {names : List String} {values : List ValueId} {name : String}
    {ty : Ty} (binds : Binds s.blocks.length (s.declare name ty).pushFunction.enter names values t) :
    t.phases = Phase.atEntry names := by
  funext a
  have hhome := binds.entry_home a
  unfold State.phases Phase.atEntry
  split at hhome
  · rename_i ha
    obtain ⟨v, -, hv⟩ := hhome
    rw [if_pos ha, hv]
    rfl
  · rename_i ha
    rw [if_neg ha, hhome]
    rfl

/-- At the end of a scope the variables in memory are those that have moved. -/
theorem Grows.complete {s s' : State} {stmts : List Stmt} {ops : List Operator}
    (grows : Grows s'.scope.memory s stmts s' ops) (placed : s.Placed) (a : String) :
    a ∈ s'.scope.memory ↔ Phase.after s.phases (Stmt.accessesAll s.inFunction stmts) a = .moved := by
  have hmemory : ∀ x, x ∈ s'.scope.memory ↔ s'.home x = .memory := fun x =>
    (Scope.home_eq_memory _ _).symm
  rw [← grows.phases_eq placed fun x => (hmemory x).mpr, State.phases_eq_moved, hmemory]

/-- Where the bodies of a compound statement start: whether they are in a function, and how far the
variables have come. -/
def Stmt.entering (inFunction : Bool) (phase : String → Phase) : Stmt → Bool × (String → Phase)
  | mk form _ =>
    match form with
    | .classDef .. => (false, phase)
    | .forIn target .. => (inFunction, Phase.after phase (target.name?.toList.map .touch))
    | _ => (inFunction, phase)

theorem Opens.entering {s t : State} {st : Stmt} {own : Head} {slots : List Slot}
    {bodies : List (List Stmt)} {close : State → State} (opens : Opens s st own slots bodies t close) :
    (t.inFunction, t.phases) = st.entering s.inFunction s.phases := by
  cases opens with
  | branch run =>
    obtain ⟨hs, flat⟩ := Lower.flat_of_operand run
    have hphases : t.phases = s.phases := by
      funext a
      rw [State.phases, flat.appended.home, State.phases]
    rw [State.inFunction_congr s flat.appended.sites, hphases]
    rfl
  | whileDo region =>
    obtain ⟨hs, flat⟩ := Lower.flat_of_operand region.1
    obtain ⟨-, -, hhome⟩ := flat.yields region.2
    have hphases : t.phases = s.phases := by
      funext a
      rw [State.phases, hhome, State.phases]
    have hsites := (Extends.of_loop flat region.2 (.inl ⟨rfl, rfl⟩)).sites
    rw [State.inFunction_congr s hsites, hphases]
    rfl
  | @forIn v _ name _ _ x _ _ region =>
    obtain ⟨hs, flat⟩ := Lower.flat_of_operand region.1
    obtain ⟨-, -, hhome⟩ := flat.yields region.2
    have write := v.write_writeThrough name
    have hphases : (v.writeThrough name).phases = Phase.after s.phases [.touch name] := by
      funext a
      rw [State.phases, write.moves.1 a, hhome, Phase.after, List.foldl_cons, List.foldl_nil, Phase.step]
      by_cases ha : a = name
      · rw [if_pos ha, if_pos ha.symm]
        rfl
      · rw [if_neg ha, if_neg (Ne.symm ha)]
        rfl
    have hsites := (Extends.of_loop flat region.2 (.inr ⟨name, rfl, write⟩)).sites
    rw [State.inFunction_congr s hsites, hphases]
    rfl
  | classDef => rfl

end RegionIR
