import RegionIR.Proofs.Agreement
/-!
# The states that lowering comes to

All that lowering does to its state is put together from a few steps. `State.Reached` holds of every
state that such steps lead to, in any order, so it holds wherever a statement or an expression is about
to be lowered. In a reached state no scope has a variable both as a value and in memory, and the value
of a variable has an id of that variable.
-/
namespace RegionIR

open Lower (Runs)

inductive State.Reached : State → Prop
  | start : Reached {}
  | read {s : State} (reached : Reached s) (name : String) : Reached (s.read name).2
  | emitResult {s : State} (reached : Reached s) (h : Head) (ty : Ty) : Reached (s.emitResult h ty).2
  | assign {s : State} (reached : Reached s) (name : String) (x : Operand) (declared : Option Ty) :
      Reached (s.assign name x declared).2
  | writeThrough {s : State} (reached : Reached s) (name : String) : Reached (s.writeThrough name)
  | declare {s : State} (reached : Reached s) (name : String) (ty : Ty) : Reached (s.declare name ty)
  | bind {s : State} (reached : Reached s) (name : String) (ty : Ty) (entry : Nat) :
      Reached (s.bind name ty entry).2
  | emit {s : State} (reached : Reached s) (op : Staged) : Reached (s.emit op)
  | enter {s : State} (reached : Reached s) : Reached s.enter
  | leave {s t : State} {block : Nat} (reached : Reached s) (left : s.leave? block = some t) : Reached t
  | pushFunction {s : State} (reached : Reached s) : Reached s.pushFunction
  | popFunction {s : State} (reached : Reached s) : Reached s.popFunction
  | pushClass {s : State} (reached : Reached s) : Reached s.pushClass
  | popClass {s : State} (reached : Reached s) : Reached s.popClass

private theorem Straight.reached {s t : State} {reads : List String} {hs : List Head}
    {pool : List Operand} (line : Straight s reads hs pool t) (h : s.Reached) : t.Reached := by
  induction line with
  | start => exact h
  | load _ _ ih => exact ih.read _
  | value _ _ ih => exact ih
  | op _ _ _ _ ih => exact ih.emitResult _ _
  | drop _ _ _ ih => exact ih

namespace Lower

private theorem reached_of_operand {s t : State} {e : Expr} {x : Operand} (run : Runs (operand e) s x t)
    (h : s.Reached) : t.Reached := by
  obtain ⟨hs, line⟩ := straight_of_operand run
  exact line.reached h

private theorem reached_of_operands {s t : State} {es : List Expr} {xs : List Operand}
    (run : Runs (operands es) s xs t) (h : s.Reached) : t.Reached := by
  obtain ⟨hs, line⟩ := straight_of_operands run
  exact line.reached h

theorem reached_of_bindParams {entry : Nat} {params : List Param} {s t : State}
    {formals : List (ValueId × Ty)} (run : Runs (bindParams entry params) s formals t)
    (h : s.Reached) : t.Reached := by
  induction params generalizing s formals with
  | nil =>
    simp only [bindParams, runs_pure] at run
    obtain ⟨-, rfl⟩ := run
    exact h
  | cons p rest ih =>
    simp only [bindParams, runs_bind, runs_step, runs_pure] at run
    obtain ⟨value, s₁, hbind, more, s₂, hmore, -, rfl⟩ := run
    apply ih hmore
    rw [← show (s.bind p.name (annotatedTy? p.annot) entry).2 = s₁ from congrArg Prod.snd hbind]
    exact h.bind _ _ _

end Lower

theorem Simple.reached {s t : State} {st : Stmt} {own : Head} (one : Simple s st own t)
    (h : s.Reached) : t.Reached := by
  cases one with
  | ret run => exact Lower.reached_of_operands run h
  | expr run => exact Lower.reached_of_operand run h
  | pass => exact h
  | breakLoop => exact h
  | continueLoop => exact h
  | declare site run =>
    apply Lower.reached_of_operands run
    unfold State.declareTarget
    split
    · exact h.declare _ _
    · exact h
  | assign run => exact (Lower.reached_of_operand run h).assign _ _ _
  | annotate site run => exact (Lower.reached_of_operand run h).assign _ _ _
  | augAssign run => exact (Lower.reached_of_operand run h).writeThrough _

private theorem YieldRegion.reached {s t s' : State} {e : Expr} {x : Operand}
    (region : YieldRegion s e x t s') (h : s.Reached) : s'.Reached :=
  ((Lower.reached_of_operand region.1 h.enter).emit _).leave region.2

theorem Opens.reached {s t : State} {st : Stmt} {own : Head} {slots : List Slot}
    {bodies : List (List Stmt)} {close : State → State} (opens : Opens s st own slots bodies t close)
    (h : s.Reached) : t.Reached ∧ ∀ u, u.Reached → (close u).Reached := by
  cases opens with
  | branch run => exact ⟨Lower.reached_of_operand run h, fun _ hu => hu⟩
  | whileDo region => exact ⟨region.reached h, fun _ hu => hu⟩
  | forIn region => exact ⟨(region.reached h).writeThrough _, fun _ hu => hu⟩
  | classDef => exact ⟨h.pushClass, fun _ hu => hu.popClass⟩

private theorem NameMap.find?_erase {α : Type} (m : NameMap α) (name x : String) :
    (m.erase name).find? x = if x = name then none else m.find? x := by
  split
  · rename_i hx
    subst hx
    simp only [erase, find?, List.lookup_eq_none_iff, List.mem_filter, bne_iff_ne]
    exact fun p hp => hp.2.symm
  · rename_i hx
    exact find?_erase_of_ne m name x hx

/-- No variable is both pending and in memory, and the value of a pending one has an id of its own with
a number below `hi` if it has one. -/
structure Scope.Tidy (hi : Nat) (sc : Scope) : Prop where
  disjoint : ∀ x ∈ sc.memory, sc.pending.find? x = none
  ids : ∀ x b v, sc.pending.find? x = some (b, v) → v.OfVar x 0 hi

namespace Scope.Tidy

variable {lo hi : Nat} {sc : Scope}

private theorem empty (hi : Nat) : Scope.Tidy hi {} := ⟨by simp, by simp [NameMap.find?]⟩

theorem mono (h : sc.Tidy lo) (hle : lo ≤ hi) : sc.Tidy hi :=
  ⟨h.disjoint, fun x b v hp => (h.ids x b v hp).mono le_rfl hle⟩

theorem find?_iff (h : sc.Tidy hi) (x : String) (b : Nat) (v : ValueId) :
    sc.pending.find? x = some (b, v) ↔ sc.home x = .pending b v := by
  constructor
  · intro hp
    have hmem : x ∉ sc.memory := by
      intro hmem
      rw [h.disjoint x hmem] at hp
      cases hp
    simp [home, hmem, hp]
  · exact sc.find?_of_home_pending x b v

private theorem define (h : sc.Tidy hi) {name : String} {value : ValueId} (block : Nat)
    (hv : value.OfVar name 0 hi) : (sc.define name block value).Tidy hi where
  disjoint x hx := by
    simp only [Scope.define, List.mem_filter, bne_iff_ne] at hx ⊢
    rw [NameMap.find?_insert_of_ne _ _ _ _ hx.2]
    exact h.disjoint x hx.1
  ids x b v hp := by
    simp only [Scope.define] at hp
    by_cases hx : x = name
    · subst hx
      rw [NameMap.find?_insert_self] at hp
      cases hp
      exact hv
    · rw [NameMap.find?_insert_of_ne _ _ _ _ hx] at hp
      exact h.ids x b v hp

private theorem promote (h : sc.Tidy hi) (name : String) : (sc.promote name).Tidy hi := by
  constructor
  · intro x hx
    simp only [Scope.promote, NameMap.find?_erase]
    split
    · rfl
    · rename_i hne
      apply h.disjoint
      simp only [Scope.promote, addMemory] at hx
      split at hx
      · exact hx
      · exact (List.mem_cons.mp hx).resolve_left hne
  · intro x b v hp
    simp only [Scope.promote, NameMap.find?_erase] at hp
    split at hp
    · cases hp
    · exact h.ids x b v hp

private theorem addMemory (h : sc.Tidy hi) {name : String} (hname : sc.home name = .undefined) :
    (sc.addMemory name).Tidy hi := by
  have hnone : sc.pending.find? name = none := by
    cases hfind : sc.pending.find? name with
    | none => rfl
    | some p =>
      rw [(h.find?_iff name p.1 p.2).mp hfind] at hname
      cases hname
  refine ⟨?_, h.ids⟩
  intro x hx
  simp only [Scope.addMemory] at hx ⊢
  split at hx
  · exact h.disjoint x hx
  · rcases List.mem_cons.mp hx with rfl | hx
    · exact hnone
    · exact h.disjoint x hx

end Scope.Tidy

def State.Tidy (s : State) : Prop := ∀ sc ∈ s.scopes, sc.Tidy s.counter

namespace State.Tidy

variable {s t : State}

theorem scope (h : s.Tidy) : s.scope.Tidy s.counter := by
  cases hs : s.scopes with
  | nil =>
    rw [State.scope, hs]
    exact .empty _
  | cons sc rest =>
    rw [State.scope, hs]
    exact h sc (by simp [hs])

theorem congr (h : s.Tidy) (scopes : t.scopes = s.scopes) (counter : s.counter ≤ t.counter) :
    t.Tidy := by
  intro sc hsc
  rw [scopes] at hsc
  exact (h sc hsc).mono counter

private theorem update (h : s.Tidy) (sc : Scope) (scopes : t.scopes = sc :: s.scopes.tail)
    (counter : s.counter ≤ t.counter) (hsc : sc.Tidy t.counter) : t.Tidy := by
  intro sc' hsc'
  rw [scopes] at hsc'
  rcases List.mem_cons.mp hsc' with rfl | hsc'
  · exact hsc
  · exact (h sc' (List.mem_of_mem_tail hsc')).mono counter

private theorem read (h : s.Tidy) (name : String) : (s.read name).2.Tidy := by
  by_cases hmem : s.home name = .memory
  · rw [State.read_memory hmem]
    exact h.congr rfl (Nat.le_succ _)
  · rw [State.read_of_ne_memory hmem]
    exact h

private theorem defineIn (h : s.Tidy) (name : String) (block : Nat) :
    ((s.freshDefinition name).2.defineIn name (s.freshDefinition name).1 block).Tidy := by
  obtain ⟨hle, hvar⟩ := (s.freshDefinition_define name block).1.ofVar
  have hscopes : (s.freshDefinition name).2.scopes = s.scopes := by
    unfold State.freshDefinition
    dsimp only
    split <;> rfl
  refine h.update (s.scope.define name block (s.freshDefinition name).1) ?_ hle ?_
  · simp only [State.defineIn, State.updateScope, State.scope, hscopes]
  · exact (h.scope.mono hle).define block (hvar.mono (Nat.zero_le _) le_rfl)

private theorem promoteToMemory (h : s.Tidy) {name : String} {block : Nat} {value : ValueId}
    (hp : s.home name = .pending block value) : (s.promoteToMemory name).Tidy := by
  rw [State.promoteToMemory_of_pending s name hp]
  exact h.update _ rfl le_rfl (h.scope.promote name)

private theorem writeThrough (h : s.Tidy) (name : String) : (s.writeThrough name).Tidy := by
  cases hhome : s.home name with
  | undefined =>
    rw [State.writeThrough_of_undefined s name hhome]
    unfold State.markMemory
    dsimp only
    split <;> exact h.update _ rfl le_rfl (h.scope.addMemory hhome)
  | pending block value =>
    rw [State.writeThrough_of_pending s name hhome]
    exact h.promoteToMemory hhome
  | memory =>
    rw [State.writeThrough_of_memory s name hhome]
    exact h

private theorem alike (h : s.Tidy) (same : Alike s t) : t.Tidy := h.congr same.scopes same.counter.ge

private theorem assign (h : s.Tidy) (name : String) (x : Operand) (declared : Option Ty) :
    (s.assign name x declared).2.Tidy := by
  cases hhome : s.home name with
  | undefined =>
    rw [State.assign_of_undefined s name x declared hhome]
    exact (h.alike (.definitionTy name x.2 declared)).defineIn name _
  | pending block value =>
    simp only [State.assign, hhome]
    exact (h.promoteToMemory hhome).alike (.declareIfAny name declared)
  | memory =>
    simp only [State.assign, hhome]
    exact h.alike (.declareIfAny name declared)

end State.Tidy

/-- Every state that lowering comes to is tidy. -/
theorem State.Reached.tidy {s : State} (reached : s.Reached) : s.Tidy := by
  induction reached with
  | start =>
    intro sc hsc
    rw [List.mem_singleton.mp hsc]
    exact .empty _
  | read _ name ih => exact ih.read name
  | emitResult _ h ty ih => exact ih.congr rfl (Nat.le_succ _)
  | assign _ name x declared ih => exact ih.assign name x declared
  | writeThrough _ name ih => exact ih.writeThrough name
  | declare _ name ty ih => exact ih.congr rfl le_rfl
  | bind _ name ty entry ih => exact (ih.defineIn name entry).congr rfl le_rfl
  | emit _ op ih => exact ih.congr rfl le_rfl
  | enter _ ih => exact ih.congr rfl le_rfl
  | leave _ left ih =>
    have left := State.left_of_leave? left
    exact ih.congr left.scopes left.counter.ge
  | pushFunction _ ih =>
    intro sc hsc
    rcases List.mem_cons.mp hsc with rfl | hsc
    · exact .empty _
    · exact ih sc hsc
  | popFunction _ ih => exact fun sc hsc => ih sc (List.mem_of_mem_tail hsc)
  | pushClass _ ih => exact ih.congr rfl le_rfl
  | popClass _ ih => exact ih.congr rfl le_rfl

end RegionIR
