import RegionIR.Proofs.Ages
import RegionIR.Proofs.Evaluation
/-!
# Variables of a run and their places

`Agrees` relates the variables of a running function to the values and the memory of the operators,
at a point of lowering. A variable in memory is there. A pending one is held by its id, and if it is
going to be moved then its store may have run already: at the end of a block that has been left, or
before the operator around the current block.
-/
namespace RegionIR

open Operator

universe u

variable {D : Type u} {I : Interp D}

/-- The variables `a` of a run agree with the machine `m` where lowering is in the state `s`. The block
`own` still gets the stores of the variables that it holds. Of the variables held by other blocks that
are open, those in `W` have been stored, and of those held by blocks that have been left, those in
`Z`. -/
structure Agrees (outside : String → Option D) (Z : List String) (own : Option Nat)
    (W : String → Prop) (s : State) (a : Activation D) (m : Machine D) : Prop where
  trace : m.trace = a.trace
  undefined : ∀ x, s.home x = .undefined → a.env x = outside x ∧ m.memory x = none ∧
    (PlainName x → m.values (.named x) = outside x)
  memory : ∀ x, s.home x = .memory → m.memory x = a.env x
  value : ∀ x b v, s.home x = .pending b v → m.values v = a.env x
  stored : ∀ x b v, s.home x = .pending b v → some b ≠ own →
    (if b ∈ s.nesting then W x else x ∈ Z) → m.memory x = a.env x
  here : ∀ x b v, s.home x = .pending b v → b ∈ s.nesting → (m.values v).isSome
  ids : ∀ x b v, s.home x = .pending b v → PlainName x ∧ v.OfVar x 0 s.counter
  fresh : ∀ v n, v.counter? = some n → s.counter ≤ n → m.values v = none

/-- The variables that have been stored once the block `c` has got its stores: of those that it holds,
the ones in `M`. -/
def Moved (s : State) (c : Nat) (M W : String → Prop) (x : String) : Prop :=
  (∀ v, s.home x = .pending c v → M x) ∧ ((∀ v, s.home x ≠ .pending c v) → W x)

theorem ValueId.OfVar.below {x : String} {lo hi : Nat} {v : ValueId} (h : v.OfVar x lo hi)
    (hx : PlainName x) : v.Below hi := by
  intro n hn
  rcases h with rfl | ⟨k, -, hk, rfl⟩
  · rw [counter?_named hx] at hn
    simp at hn
  · rw [counter?_versioned] at hn
    cases hn
    exact hk

theorem ValueId.OfVar.ne {x y : String} {lo hi lo' hi' : Nat} {v w : ValueId} (h : v.OfVar x lo hi)
    (h' : w.OfVar y lo' hi') (hx : PlainName x) (hy : PlainName y) (hne : x ≠ y) : v ≠ w := by
  rintro rfl
  rcases h with rfl | ⟨n, -, -, rfl⟩
  · rcases h' with h' | ⟨k, -, -, h'⟩
    · exact hne (named_injective h')
    · exact named_ne_versioned hx _ _ h'
  · rcases h' with h' | ⟨k, -, -, h'⟩
    · exact named_ne_versioned hy _ _ h'.symm
    · exact hne (versioned_inj.mp h').1

theorem ValueId.OfVar.mono {x : String} {lo lo' hi hi' : Nat} {v : ValueId} (h : v.OfVar x lo hi)
    (hlo : lo' ≤ lo) (hhi : hi ≤ hi') : v.OfVar x lo' hi' := by
  rcases h with h | ⟨n, hn, hn', h⟩
  · exact .inl h
  · exact .inr ⟨n, hlo.trans hn, hn'.trans_le hhi, h⟩

private theorem runAll_lates {ls : List Late} {m : Machine D} (hnodup : (ls.map Prod.fst).Nodup)
    (hvalues : ∀ l ∈ ls, (m.values l.2.1).isSome) :
    ∃ m', runAll I m ((ls.map Late.head).map leaf) = some (m', .next) ∧ m'.values = m.values ∧
      m'.trace = m.trace ∧ (∀ l ∈ ls, m'.memory l.1 = m.values l.2.1) ∧
      ∀ x, x ∉ ls.map Prod.fst → m'.memory x = m.memory x := by
  induction ls generalizing m with
  | nil => exact ⟨m, rfl, rfl, rfl, by simp, fun _ _ => rfl⟩
  | cons l ls ih =>
    rw [List.map_cons, List.nodup_cons] at hnodup
    obtain ⟨d, hd⟩ := Option.isSome_iff_exists.mp (hvalues l List.mem_cons_self)
    obtain ⟨m', hrun, hsame, htrace, hstored, hother⟩ := ih (m := m.store l.1 d) hnodup.2
      fun k hk => hvalues k (List.mem_cons_of_mem _ hk)
    refine ⟨m', ?_, hsame, htrace, ?_, ?_⟩
    · have hstep : run I m (leaf l.head) = some (m.store l.1 d, .next) := by
        rw [run_leaf I m (by simp [Late.head, storeHead]), Late.head, Head.effect_storeHead, hd]
        rfl
      rw [List.map_cons, List.map_cons, runAll, hstep, proceed_next, hrun]
    · intro k hk
      rcases List.mem_cons.mp hk with rfl | hk
      · rw [hother _ hnodup.1, hd]
        simp [Machine.store]
      · exact hstored k hk
    · intro x hx
      rw [List.map_cons, List.mem_cons, not_or] at hx
      rw [hother x hx.2]
      exact Function.update_of_ne hx.1 _ _

namespace Agrees

variable {outside : String → Option D} {Z : List String} {own : Option Nat} {W : String → Prop}
  {s t : State} {a : Activation D} {m m' : Machine D}

theorem ready (h : Agrees outside Z own W s a m) {names : List String}
    (plain : ∀ x ∈ names, PlainName x) : Ready s a.env m names where
  loaded x _ hmem := h.memory x hmem
  held x hx hne := by
    cases hhome : s.home x with
    | memory => exact absurd hhome hne
    | undefined =>
      obtain ⟨henv, -, hvalue⟩ := h.undefined x hhome
      refine ⟨by rw [henv]; exact hvalue (plain x hx), ?_⟩
      intro n hn
      rw [show Home.valueOf x .undefined = .named x from rfl, ValueId.counter?_named (plain x hx)] at hn
      simp at hn
    | pending b v =>
      obtain ⟨hplain, hids⟩ := h.ids x b v hhome
      exact ⟨h.value x b v hhome, hids.below hplain⟩

theorem congr (h : Agrees outside Z own W s a m) (home : ∀ x, t.home x = s.home x)
    (nesting : t.nesting = s.nesting) (counter : t.counter = s.counter) :
    Agrees outside Z own W t a m where
  trace := h.trace
  undefined x hx := h.undefined x (by rwa [← home x])
  memory x hx := h.memory x (by rwa [← home x])
  value x b v hp := h.value x b v (by rwa [← home x])
  stored x b v hp hown hkept := by
    rw [nesting] at hkept
    exact h.stored x b v (by rwa [← home x]) hown hkept
  here x b v hp hb := h.here x b v (by rwa [← home x]) (by rwa [← nesting])
  ids x b v hp := by
    rw [counter]
    exact h.ids x b v (by rwa [← home x])
  fresh v n hv hn := h.fresh v n hv (by rwa [← counter])

theorem later {hs : List Head} (h : Agrees outside Z own W s a m) (happ : Appended s hs t)
    (hlater : Later s.counter t.counter m m') : Agrees outside Z own W t a m' where
  trace := hlater.trace.trans h.trace
  undefined x hx := by
    rw [happ.home] at hx
    obtain ⟨henv, hmem, hvalue⟩ := h.undefined x hx
    refine ⟨henv, by rw [hlater.memory, hmem], fun hplain => ?_⟩
    rw [hlater.values _ ?_, hvalue hplain]
    intro n hn
    rw [ValueId.counter?_named hplain] at hn
    simp at hn
  memory x hx := by
    rw [happ.home] at hx
    rw [hlater.memory, h.memory x hx]
  value x b v hp := by
    rw [happ.home] at hp
    obtain ⟨hplain, hids⟩ := h.ids x b v hp
    rw [hlater.below (hids.below hplain), h.value x b v hp]
  stored x b v hp hown hkept := by
    rw [happ.home] at hp
    rw [happ.nesting] at hkept
    rw [hlater.memory, h.stored x b v hp hown hkept]
  here x b v hp hb := by
    rw [happ.home] at hp
    rw [happ.nesting] at hb
    obtain ⟨hplain, hids⟩ := h.ids x b v hp
    rw [hlater.below (hids.below hplain)]
    exact h.here x b v hp hb
  ids x b v hp := by
    rw [happ.home] at hp
    obtain ⟨hplain, hids⟩ := h.ids x b v hp
    exact ⟨hplain, hids.mono le_rfl happ.counter_le⟩
  fresh v n hv hn := by
    rw [hlater.values v ?_, h.fresh v n hv (happ.counter_le.trans hn)]
    intro k hk
    rw [hv] at hk
    cases hk
    exact .inr hn

/-- The block `c` gets the stores of the variables that it holds and that are in `M`. -/
theorem flush {c : Nat} {M : String → Prop} {ls : List Late}
    (h : Agrees outside Z (some c) W s a m) (hc : c ∈ s.nesting)
    (retro : Retro (fun x v => s.home x = .pending c v ∧ M x) ls) :
    ∃ m', runAll I m ((ls.map Late.head).map leaf) = some (m', .next) ∧ m'.values = m.values ∧
      Agrees outside Z none (Moved s c M W) s a m' := by
  have hmem : ∀ l ∈ ls, s.home l.1 = .pending c l.2.1 ∧ M l.1 := fun l hl =>
    (retro.mem l.1 l.2.1).mp ⟨l.2.2, hl⟩
  obtain ⟨m', hrun, hvalues, htrace, hstored, hother⟩ := runAll_lates (I := I) retro.nodup
    fun l hl => h.here l.1 c l.2.1 (hmem l hl).1 hc
  have hsame : ∀ x, (∀ v, s.home x ≠ .pending c v) → m'.memory x = m.memory x := by
    intro x hx
    refine hother x ?_
    intro hin
    obtain ⟨l, hl, rfl⟩ := List.mem_map.mp hin
    exact hx _ (hmem l hl).1
  refine ⟨m', hrun, hvalues, htrace.trans h.trace, ?_, ?_, ?_, ?_, ?_, h.ids, ?_⟩
  · intro x hx
    rw [hsame x (by simp [hx]), hvalues]
    exact h.undefined x hx
  · intro x hx
    rw [hsame x (by simp [hx])]
    exact h.memory x hx
  · intro x b v hp
    rw [hvalues]
    exact h.value x b v hp
  · intro x b v hp _ hkept
    by_cases hb : b = c
    · subst hb
      rw [if_pos hc] at hkept
      obtain ⟨ty, hl⟩ := (retro.mem x v).mpr ⟨hp, hkept.1 v hp⟩
      rw [hstored _ hl, h.value x b v hp]
    · have hne : ∀ w, s.home x ≠ .pending c w := by
        rw [hp]
        rintro w ⟨⟩
        exact hb rfl
      rw [hsame x hne]
      refine h.stored x b v hp (by simpa using hb) ?_
      split at hkept
      · rw [if_pos ‹_›]
        exact hkept.2 hne
      · rwa [if_neg ‹_›]
  · intro x b v hp hb
    rw [hvalues]
    exact h.here x b v hp hb
  · intro v n hv hn
    rw [hvalues]
    exact h.fresh v n hv hn

theorem mono {W' : String → Prop} (h : Agrees outside Z none W' s a m)
    (hW : ∀ x b v, s.home x = .pending b v → some b ≠ own → W x → W' x) :
    Agrees outside Z own W s a m where
  trace := h.trace
  undefined := h.undefined
  memory := h.memory
  value := h.value
  stored x b v hp hown hkept := by
    refine h.stored x b v hp (by simp) ?_
    split at hkept
    · rw [if_pos ‹_›]
      exact hW x b v hp hown hkept
    · rwa [if_neg ‹_›]
  here := h.here
  ids := h.ids
  fresh := h.fresh

theorem reopen {c : Nat} {M : String → Prop} (h : Agrees outside Z none (Moved s c M W) s a m) :
    Agrees outside Z (some c) W s a m := by
  refine h.mono fun x b v hp hown hW => ⟨fun w hw => ?_, fun _ => hW⟩
  rw [hp] at hw
  cases hw
  exact absurd rfl hown

theorem fetch {x : String} (h : Agrees outside Z none W s a m)
    (hout : s.home x = .undefined → outside x = none) (hW : W x) (hZ : x ∈ Z) :
    m.memory x = a.env x := by
  cases hs : s.home x with
  | undefined =>
    obtain ⟨henv, hmem, -⟩ := h.undefined x hs
    rw [henv, hmem, hout hs]
  | memory => exact h.memory x hs
  | pending b v =>
    refine h.stored x b v hs (by simp) ?_
    split
    · exact hW
    · exact hZ

theorem log {d : D} (h : Agrees outside Z own W s a m) :
    Agrees outside Z own W s { a with trace := a.trace ++ [d] } (m.log d) :=
  { h with trace := congrArg (· ++ [d]) h.trace }

theorem define {name : String} {value : ValueId} {d : D}
    (h : Agrees outside Z (some s.current) W s a m) (write : Write s name (some value) t)
    (hname : PlainName name) :
    Agrees outside Z (some s.current) W t (a.set name d) (m.define value d) := by
  cases write with
  | define frame before _ fresh home =>
    obtain ⟨hle, hvalue⟩ := fresh.ofVar
    have henv : ∀ x, x ≠ name → (a.set name d).env x = a.env x := fun x hx =>
      Function.update_of_ne hx _ _
    have hvalues : ∀ v, v ≠ value → (m.define value d).values v = m.values v := fun v hv =>
      Function.update_of_ne hv _ _
    have hother : ∀ x b v, x ≠ name → s.home x = .pending b v → v ≠ value := by
      intro x b v hx hp
      obtain ⟨hplain, hids⟩ := h.ids x b v hp
      exact hids.ne hvalue hplain hname hx
    refine ⟨h.trace, ?_, ?_, ?_, ?_, ?_, ?_, ?_⟩
    · intro x hx
      rw [home x] at hx
      split at hx
      · exact Home.noConfusion hx
      · rename_i hne
        obtain ⟨henv', hmem, hv⟩ := h.undefined x hx
        refine ⟨by rw [henv x hne, henv'], hmem, fun hplain => ?_⟩
        have hnamed : ValueId.OfVar x 0 0 (.named x) := .inl rfl
        rw [hvalues _ (hnamed.ne hvalue hplain hname hne), hv hplain]
    · intro x hx
      rw [home x] at hx
      split at hx
      · exact Home.noConfusion hx
      · rename_i hne
        rw [henv x hne]
        exact h.memory x hx
    · intro x b v hp
      rw [home x] at hp
      split at hp
      · rename_i hx
        cases hp
        simp [Machine.define, Activation.set, hx]
      · rename_i hne
        rw [henv x hne, hvalues v (hother x b v hne hp), h.value x b v hp]
    · intro x b v hp hown hkept
      rw [home x] at hp
      split at hp
      · cases hp
        exact absurd rfl hown
      · rename_i hne
        rw [frame.nesting] at hkept
        rw [henv x hne]
        exact h.stored x b v hp hown hkept
    · intro x b v hp hb
      rw [home x] at hp
      split at hp
      · cases hp
        simp [Machine.define]
      · rename_i hne
        rw [frame.nesting] at hb
        rw [hvalues v (hother x b v hne hp)]
        exact h.here x b v hp hb
    · intro x b v hp
      rw [home x] at hp
      split at hp
      · rename_i hx
        cases hp
        rw [hx]
        exact ⟨hname, hvalue.mono (Nat.zero_le _) le_rfl⟩
      · obtain ⟨hplain, hids⟩ := h.ids x b v hp
        exact ⟨hplain, hids.mono le_rfl hle⟩
    · intro v n hv hn
      rw [hvalues v, h.fresh v n hv (hle.trans hn)]
      rintro rfl
      have := hvalue.below hname n hv
      omega

theorem rewrite {name : String} {d : D} (h : Agrees outside Z own W s a m)
    (write : Write s name none t) :
    Agrees outside Z own W t (a.set name d) (m.store name d) := by
  obtain ⟨home, -, counter⟩ := write.moves
  have henv : ∀ x, x ≠ name → (a.set name d).env x = a.env x := fun x hx =>
    Function.update_of_ne hx _ _
  have hmemory : ∀ x, x ≠ name → (m.store name d).memory x = m.memory x := fun x hx =>
    Function.update_of_ne hx _ _
  have hsplit : ∀ x, t.home x ≠ .memory → x ≠ name ∧ t.home x = s.home x := by
    intro x hx
    rw [home x] at hx ⊢
    split at hx
    · exact absurd rfl hx
    · rename_i hne
      exact ⟨hne, if_neg hne⟩
  have hpending : ∀ x b v, t.home x = .pending b v → x ≠ name ∧ s.home x = .pending b v := by
    intro x b v hp
    obtain ⟨hne, hx⟩ := hsplit x (by simp [hp])
    exact ⟨hne, by rw [← hx, hp]⟩
  refine ⟨h.trace, ?_, ?_, ?_, ?_, ?_, ?_, ?_⟩
  · intro x hx
    obtain ⟨hne, hs⟩ := hsplit x (by simp [hx])
    rw [henv x hne, hmemory x hne]
    exact h.undefined x (by rw [← hs, hx])
  · intro x hx
    by_cases hne : x = name
    · simp [Machine.store, Activation.set, hne]
    · rw [home x, if_neg hne] at hx
      rw [henv x hne, hmemory x hne]
      exact h.memory x hx
  · intro x b v hp
    obtain ⟨hne, hp⟩ := hpending x b v hp
    rw [henv x hne]
    exact h.value x b v hp
  · intro x b v hp hown hkept
    obtain ⟨hne, hp⟩ := hpending x b v hp
    rw [write.frame.nesting] at hkept
    rw [henv x hne, hmemory x hne]
    exact h.stored x b v hp hown hkept
  · intro x b v hp hb
    rw [write.frame.nesting] at hb
    exact h.here x b v (hpending x b v hp).2 hb
  · intro x b v hp
    rw [counter]
    exact h.ids x b v (hpending x b v hp).2
  · intro v n hv hn
    rw [counter] at hn
    exact h.fresh v n hv hn

theorem enter (h : Agrees outside Z none W s a m) (placed : s.Placed) :
    Agrees outside Z (some s.enter.current) W s.enter a m where
  trace := h.trace
  undefined := h.undefined
  memory := h.memory
  value := h.value
  stored x b v hp _ hkept := by
    refine h.stored x b v hp (by simp) ?_
    have hne : b ≠ s.blocks.length := (placed.pending x b v hp).ne
    simpa [State.enter, State.record, hne] using hkept
  here x b v hp hb := by
    refine h.here x b v hp ?_
    have hne : b ≠ s.blocks.length := (placed.pending x b v hp).ne
    simpa [State.enter, State.record, hne] using hb
  ids := h.ids
  fresh := h.fresh

theorem leave {q : Nat} (h : Agrees outside Z none (Moved s q (· ∈ Z) W) s a m) (left : Left s q t)
    (hq : q ∉ t.nesting) : Agrees outside Z none W t a m where
  trace := h.trace
  undefined x hx := h.undefined x (by rwa [← left.home x])
  memory x hx := h.memory x (by rwa [← left.home x])
  value x b v hp := h.value x b v (by rwa [← left.home x])
  stored x b v hp _ hkept := by
    rw [left.home x] at hp
    refine h.stored x b v hp (by simp) ?_
    rw [left.nesting]
    by_cases hb : b = q
    · subst hb
      rw [if_neg hq] at hkept
      rw [if_pos List.mem_cons_self]
      exact ⟨fun _ _ => hkept, fun hne => absurd hp (hne v)⟩
    · have hne : ∀ w, s.home x ≠ .pending q w := by
        rw [hp]
        rintro w ⟨⟩
        exact hb rfl
      simp only [List.mem_cons, hb, false_or]
      split at hkept
      · rw [if_pos ‹_›]
        exact ⟨fun w hw => absurd hw (hne w), fun _ => hkept⟩
      · rwa [if_neg ‹_›]
  here x b v hp hb := by
    refine h.here x b v (by rwa [← left.home x]) ?_
    rw [left.nesting]
    exact List.mem_cons_of_mem _ hb
  ids x b v hp := by
    rw [left.counter]
    exact h.ids x b v (by rwa [← left.home x])
  fresh v n hv hn := h.fresh v n hv (by rwa [← left.counter])

/-- The statements between two states are not run. What they bind has no value, and what they move has
been stored. -/
theorem skip {bound : List String} (h : Agrees outside Z none W s a m) (placed : s.Placed)
    (ext : Extends none s t) (ages : Ages bound s t)
    (hbound : ∀ x ∈ bound, PlainName x ∧ outside x = none)
    (hmoved : ∀ x, t.home x = .memory → W x ∧ x ∈ Z) : Agrees outside Z none W t a m := by
  -- a variable that gets its home in between
  have hborn : ∀ x, s.home x = .undefined → t.home x ≠ .undefined →
      PlainName x ∧ a.env x = none ∧ m.memory x = none ∧ m.values (.named x) = none := by
    intro x hs ht
    have hx : x ∈ bound := by
      by_contra hx
      rw [ages.home x hx] at ht
      exact ht hs
    obtain ⟨hplain, hout⟩ := hbound x hx
    obtain ⟨henv, hmem, hvalue⟩ := h.undefined x hs
    exact ⟨hplain, by rw [henv, hout], hmem, by rw [hvalue hplain, hout]⟩
  -- a pending variable has been pending, or its id has got no value yet
  have hpending : ∀ x b v, t.home x = .pending b v → s.home x = .pending b v ∨
      s.home x = .undefined ∧ v.OfVar x s.counter t.counter ∧ m.values v = none := by
    intro x b v hp
    rcases ages.born x b v hp with hs | hids
    · exact .inl hs
    · refine (ext.undefined_or_pending hp).symm.imp id fun hs => ⟨hs, hids, ?_⟩
      rcases hids with rfl | ⟨n, hn, -, rfl⟩
      · exact (hborn x hs (by simp [hp])).2.2.2
      · exact h.fresh _ n (ValueId.counter?_versioned _ _) hn
  refine ⟨h.trace, ?_, ?_, ?_, ?_, ?_, ?_, ?_⟩
  · intro x hx
    exact h.undefined x (ext.undefined_before hx)
  · intro x hx
    refine h.fetch (fun hs => ?_) (hmoved x hx).1 (hmoved x hx).2
    rw [← (h.undefined x hs).1]
    exact (hborn x hs (by simp [hx])).2.1
  · intro x b v hp
    rcases hpending x b v hp with hs | ⟨hs, -, hv⟩
    · exact h.value x b v hs
    · rw [hv, (hborn x hs (by simp [hp])).2.1]
  · intro x b v hp _ hkept
    rcases hpending x b v hp with hs | ⟨hs, -, -⟩
    · rw [ext.nesting] at hkept
      exact h.stored x b v hs (by simp) hkept
    · obtain ⟨-, henv, hmem, -⟩ := hborn x hs (by simp [hp])
      rw [henv, hmem]
  · intro x b v hp hb
    rw [ext.nesting] at hb
    rcases ext.origin x b v hp with hs | hs | hs
    · exact h.here x b v hs hb
    · simp at hs
    · have := placed.nesting b hb
      omega
  · intro x b v hp
    rcases hpending x b v hp with hs | ⟨hs, hids, -⟩
    · obtain ⟨hplain, hids⟩ := h.ids x b v hs
      exact ⟨hplain, hids.mono le_rfl ages.counter⟩
    · exact ⟨(hborn x hs (by simp [hp])).1, hids.mono (Nat.zero_le _) le_rfl⟩
  · intro v n hv hn
    exact h.fresh v n hv (ages.counter.trans hn)

end Agrees

end RegionIR
