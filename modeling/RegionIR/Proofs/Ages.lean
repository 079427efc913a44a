import RegionIR.Proofs.Extension
import RegionIR.Proofs.Meaning
/-!
# Variables over a pass

A pass over statements changes the homes of the variables that the statements bind and of no others. A
variable that becomes a value gets its plain id or a version with a number drawn in between.
-/
namespace RegionIR

def Act.boundAll (acts : List Act) : List String := (Act.accessesAll acts).filterMap Access.bound?

theorem Act.boundAll_append (as bs : List Act) :
    boundAll (as ++ bs) = boundAll as ++ boundAll bs := by
  rw [boundAll, accessesAll_append, List.filterMap_append]
  rfl

/-- The id of a variable's value, with a number below `hi` if it has one. -/
def ValueId.OfVar (x : String) (lo hi : Nat) (v : ValueId) : Prop :=
  v = .named x ∨ ∃ n, lo ≤ n ∧ n < hi ∧ v = .versioned x n

theorem Fresh.ofVar {s t : State} {name : String} {value : ValueId} (h : Fresh s name value t) :
    s.counter ≤ t.counter ∧ value.OfVar name s.counter t.counter := by
  cases h with
  | plain _ _ counter => exact ⟨counter.ge, .inl rfl⟩
  | version _ _ counter => exact ⟨by omega, .inr ⟨s.counter, le_rfl, by omega, rfl⟩⟩

structure Ages (bound : List String) (s t : State) : Prop where
  counter : s.counter ≤ t.counter
  home : ∀ x, x ∉ bound → t.home x = s.home x
  born : ∀ x b v, t.home x = .pending b v → s.home x = .pending b v ∨ v.OfVar x s.counter t.counter

namespace Ages

variable {bound more : List String} {s t u : State}

private theorem of_same (counter : s.counter ≤ t.counter) (home : ∀ x, t.home x = s.home x) :
    Ages bound s t where
  counter := counter
  home x _ := home x
  born x b v hp := .inl (by rwa [← home x])

theorem trans (h : Ages bound s t) (h' : Ages more t u) : Ages (bound ++ more) s u where
  counter := h.counter.trans h'.counter
  home x hx := by
    rw [List.mem_append, not_or] at hx
    rw [h'.home x hx.2, h.home x hx.1]
  born x b v hp := by
    have hle := h.counter
    have hle' := h'.counter
    rcases h'.born x b v hp with hp | hv | ⟨n, hn, hn', hv⟩
    · rcases h.born x b v hp with hp | hv | ⟨n, hn, hn', hv⟩
      · exact .inl hp
      · exact .inr (.inl hv)
      · exact .inr (.inr ⟨n, hn, by omega, hv⟩)
    · exact .inr (.inl hv)
    · exact .inr (.inr ⟨n, by omega, hn', hv⟩)

private theorem of_write {name : String} {r : Option ValueId} (h : Write s name r t) :
    Ages [name] s t := by
  have home : ∀ x, x ∉ [name] → t.home x = s.home x := fun x hx => h.home_of_ne (by simpa using hx)
  cases r with
  | none => exact ⟨h.moves.2.2.ge, home, fun x b v hp => .inl (h.pending_before hp)⟩
  | some value =>
    cases h with
    | define _ _ _ fresh hdef =>
      refine ⟨fresh.ofVar.1, home, ?_⟩
      intro x b v hp
      rw [hdef x] at hp
      split at hp
      · rename_i hx
        cases hp
        rw [hx]
        exact .inr fresh.ofVar.2
      · exact .inl hp

private theorem of_appended {hs : List Head} (h : Appended s hs t) : Ages bound s t := by
  refine .of_same ?_ h.home
  rw [h.counter]
  omega

theorem start (h : Ages bound t u) (counter : t.counter = s.counter)
    (home : ∀ x, t.home x = s.home x) : Ages bound s u where
  counter := by
    rw [← counter]
    exact h.counter
  home x hx := by
    rw [h.home x hx, home x]
  born x b v hp := by
    rw [← home x, ← counter]
    exact h.born x b v hp

theorem finish (h : Ages bound s t) (counter : u.counter = t.counter)
    (home : ∀ x, u.home x = t.home x) : Ages bound s u where
  counter := by
    rw [counter]
    exact h.counter
  home x hx := by
    rw [home x, h.home x hx]
  born x b v hp := by
    rw [home x] at hp
    rw [counter]
    exact h.born x b v hp
end Ages

private theorem Act.boundAll_reads (names : List String) : boundAll (names.map .read) = [] := by
  rw [boundAll, accessesAll_reads, List.filterMap_map]
  induction names with
  | nil => rfl
  | cons x names ih => simp [Access.bound?]

mutual

private theorem Act.mem_names_of_bound {x : String} : (a : Act) →
    x ∈ a.accesses.filterMap Access.bound? → x ∈ a.names
  | .read _, h => by simp [accesses, Access.bound?] at h
  | .bind _, h => by simpa [accesses, Access.bound?, names] using h
  | .touch _, h => by simpa [accesses, Access.bound?, names] using h
  | .nest acts, h => mem_namesAll_of_boundAll acts h
  | .function _ _, h => by simp [accesses] at h

theorem Act.mem_namesAll_of_boundAll {x : String} : (acts : List Act) → x ∈ boundAll acts →
    x ∈ namesAll acts
  | [], h => h
  | a :: rest, h => by
    rw [boundAll, accessesAll, List.filterMap_append, List.mem_append] at h
    rw [namesAll, List.mem_append]
    exact h.imp (mem_names_of_bound a) (mem_namesAll_of_boundAll rest)

end

private theorem Settles.ages {m t : State} {args : List ValueId} {writes : List Act} {own : Head}
    (h : Settles m args writes own t) : Ages (Act.boundAll writes) m t := by
  cases h with
  | plain => exact .of_same le_rfl fun _ => rfl
  | define _ _ _ _ write => exact .of_write write
  | store _ _ write => exact .of_write write
  | through _ _ write => exact .of_write write

private theorem Opening.ages {s m : State} {pre : List Act} {hs : List Head} {slots : List Slot}
    {regions : List Region} {args : List ValueId} (h : Opening s pre hs slots regions args m) :
    Ages (Act.boundAll pre) s m := by
  cases h with
  | inline flat => exact .of_appended flat.appended
  | @loop reads hs x u v _ writes flat leave written =>
    have hline : Ages [] s u := by
      have happ := flat.appended
      refine .of_same ?_ happ.home
      rw [happ.counter]
      exact Nat.le_add_right _ _
    have left := State.left_of_leave? leave
    have hleft : Ages [] u v := .of_same left.counter.ge left.home
    have hwrite : Ages (Act.boundAll writes) v m := by
      obtain ⟨rfl, rfl⟩ | ⟨name, rfl, write⟩ := written
      · exact .of_same le_rfl fun _ => rfl
      · exact .of_write write
    have hnest : Act.boundAll (.nest (reads.map .read) :: writes) = Act.boundAll writes := by
      rw [Act.boundAll, Act.accessesAll, Act.accesses, List.filterMap_append]
      simpa [Act.boundAll] using Act.boundAll_reads reads
    rw [hnest]
    exact (hline.trans hleft).trans hwrite

theorem Binds.counter_le {entry : Nat} {s t : State} {names : List String} {values : List ValueId}
    (h : Binds entry s names values t) : s.counter ≤ t.counter := by
  induction h with
  | nil => exact le_rfl
  | cons _ _ fresh _ _ ih => exact fresh.ofVar.1.trans ih

mutual

theorem Lowers.ages : ∀ {s s' : State} {stmts : List Stmt}, Lowers s stmts s' →
    Ages (Act.boundAll (Stmt.actsAll s.inFunction stmts)) s s'
  | _, _, _, .nil => .of_same le_rfl fun _ => rfl
  | s, s', _, @Lowers.simple _ t _ st own stmts one rest => by
    obtain ⟨s₀, reads, hs, args, m, writes, same, flat, settles, acts⟩ := one.settles
    have hline : Ages (Act.boundAll (reads.map .read)) s m := by
      have happ := flat.appended
      refine .of_same ?_ fun x => by rw [happ.home, same.home]
      rw [happ.counter, same.counter]
      exact Nat.le_add_right _ _
    have hrest := rest.ages
    rw [State.inFunction_congr s (one.extension.emitted (.ofHead own)).sites] at hrest
    rw [Stmt.actsAll, acts, Act.boundAll_append, Act.boundAll_append]
    exact (hline.trans settles.ages).trans (hrest.start rfl fun _ => rfl)
  | s, s', _, @Lowers.compound _ t u _ _ own slots more _ close _ opens regions rest => by
    obtain ⟨pre, hs, pres, m, opened⟩ := opens.opened
    have hopen := opened.opening.extension
    have hnext := opened.emitted regions.extension (.ofHead own (slots ++ more))
    have hinner := (regions.ages.start opened.start.counter opened.start.home).finish
      (opened.finish u).counter (opened.finish u).home
    have hrest := rest.ages
    rw [State.inFunction_congr s hnext.sites] at hrest
    rw [Stmt.actsAll, opened.acts hopen.sites, Act.boundAll_append, Act.boundAll_append]
    exact (opened.opening.ages.trans hinner).trans (hrest.start rfl fun _ => rfl)
  | s, s', _, @Lowers.function _ t u v _ name params body _ decorators returns span formals accepted
      bind inner leave rest => by
    have binds := Lower.binds_of_bindParams bind
    have left := State.left_of_leave? leave
    have hhome := binds.home_popFunction inner.extension.toFrame left
    have hcounter : s.counter ≤ v.popFunction.counter := by
      have hle := inner.ages.counter
      have hle' := binds.counter_le
      rw [show v.popFunction.counter = u.counter from left.counter]
      exact le_trans hle' hle
    have hrest := rest.ages
    rw [State.inFunction_congr s (binds.emitted inner.extension left _).sites] at hrest
    rw [Stmt.actsAll, Act.boundAll_append]
    exact Ages.trans (.of_same hcounter hhome) (hrest.start rfl fun _ => rfl)

theorem LowersBodies.ages : ∀ {s s' : State} {bodies : List (List Stmt)} {slots : List Slot},
    LowersBodies s bodies slots s' →
    Ages (Act.boundAll (bodies.map fun body => .nest (Stmt.actsAll s.inFunction body))) s s'
  | _, _, _, _, .nil => .of_same le_rfl fun _ => rfl
  | s, s', _, _, @LowersBodies.cons _ t u _ _ _ _ inner leave rest => by
    have left := State.left_of_leave? leave
    have hregion := inner.extension.region left
    have hinner := (inner.ages.start (s := s) rfl fun _ => rfl).finish left.counter left.home
    have hrest := rest.ages
    rw [State.inFunction_congr s hregion.sites] at hrest
    rw [List.map_cons, ← List.singleton_append, Act.boundAll_append]
    refine Ages.trans ?_ hrest
    rw [Act.boundAll, Act.accessesAll, Act.accessesAll, Act.accesses, List.append_nil]
    exact hinner

end

end RegionIR
