import RegionIR.Proofs.Effects
/-!
# What a pass leaves in place

Lowering only ever appends. `Extends own s s'` says so for one scope: apart from the block `own`, a
block that is open in `s` gains nothing but stores of variables whose values it holds, one for each of
them that has moved to memory by `s'`; and a variable goes from undefined to pending to memory, never
back.
-/
namespace RegionIR

open Lower (Runs)

/-- A store that promotion puts in: the variable, its value and the type recorded for it. -/
abbrev Late := String × ValueId × Ty

def Late.head (l : Late) : Head := storeHead l.1 l.2.1 l.2.2

def Late.staged (l : Late) : Staged := .ofHead l.head

/-- The stores are for exactly the variables and values that `P` holds of, one for each variable. -/
structure Retro (P : String → ValueId → Prop) (ls : List Late) : Prop where
  nodup : (ls.map Prod.fst).Nodup
  mem : ∀ a v, (∃ ty, (a, v, ty) ∈ ls) ↔ P a v

namespace Retro

variable {P Q : String → ValueId → Prop} {ls ks : List Late}

theorem nil (h : ∀ a v, ¬ P a v) : Retro P [] := by
  refine ⟨by simp, ?_⟩
  intro a v
  simp [h a v]

theorem eq_nil (r : Retro P ls) (h : ∀ a v, ¬ P a v) : ls = [] := by
  cases ls with
  | nil => rfl
  | cons l ls =>
    obtain ⟨a, v, ty⟩ := l
    exact absurd ((r.mem a v).mp ⟨ty, by simp⟩) (h a v)

private theorem singleton {name : String} {value : ValueId} (ty : Ty)
    (h : ∀ a v, P a v ↔ a = name ∧ v = value) : Retro P [(name, value, ty)] := by
  refine ⟨by simp, ?_⟩
  intro a v
  simp [h a v]

theorem congr (r : Retro P ls) (h : ∀ a v, P a v ↔ Q a v) : Retro Q ls :=
  ⟨r.nodup, fun a v => (r.mem a v).trans (h a v)⟩

theorem append (r : Retro P ls) (r' : Retro Q ks) (apart : ∀ a v w, P a v → ¬ Q a w) :
    Retro (fun a v => P a v ∨ Q a v) (ls ++ ks) := by
  constructor
  · rw [List.map_append, List.nodup_append]
    refine ⟨r.nodup, r'.nodup, ?_⟩
    rintro a ha b hb rfl
    obtain ⟨⟨_, v, ty⟩, hl, rfl⟩ := List.mem_map.mp ha
    obtain ⟨⟨_, w, ty'⟩, hk, hab⟩ := List.mem_map.mp hb
    simp only at hab
    subst hab
    exact apart _ v w ((r.mem _ v).mp ⟨ty, hl⟩) ((r'.mem _ w).mp ⟨ty', hk⟩)
  · intro a v
    simp only [List.mem_append, exists_or, r.mem a v, r'.mem a v]

end Retro

structure Extends (own : Option Nat) (s s' : State) : Prop extends Frame s s' where
  length : s.blocks.length ≤ s'.blocks.length
  stored : ∀ b < s.blocks.length, some b ≠ own → ∃ ls : List Late,
    s'.blocks.contents b = s.blocks.contents b ++ ls.map Late.staged ∧
      Retro (fun a v => s.home a = .pending b v ∧ s'.home a = .memory) ls
  memory : ∀ a, s.home a = .memory → s'.home a = .memory
  pending : ∀ a b v, s.home a = .pending b v → s'.home a = .pending b v ∨ s'.home a = .memory
  origin : ∀ a b v, s'.home a = .pending b v → s.home a = .pending b v ∨ some b = own ∨
    s.blocks.length ≤ b ∧ b < s'.blocks.length

namespace Extends

variable {own : Option Nat} {s t u : State}

private theorem of_same_homes (frame : Frame s t) (length : s.blocks.length ≤ t.blocks.length)
    (contents : ∀ b < s.blocks.length, some b ≠ own → t.blocks.contents b = s.blocks.contents b)
    (home : ∀ x, t.home x = s.home x) : Extends own s t where
  toFrame := frame
  length := length
  stored b hb hown := by
    refine ⟨[], by simp [contents b hb hown], .nil ?_⟩
    rintro a v ⟨hp, hm⟩
    rw [home, hp] at hm
    exact Home.noConfusion hm
  memory a h := by rw [home, h]
  pending a b v h := .inl (by rw [home, h])
  origin a b v h := .inl (by rw [← home, h])

theorem refl (own : Option Nat) (s : State) : Extends own s s :=
  .of_same_homes ⟨rfl, rfl, rfl⟩ le_rfl (fun _ _ _ => rfl) fun _ => rfl

theorem weaken (h : Extends none s t) (own : Option Nat) : Extends own s t where
  toFrame := h.toFrame
  length := h.length
  stored b hb _ := h.stored b hb (by simp)
  memory := h.memory
  pending := h.pending
  origin a b v hp := by
    rcases h.origin a b v hp with h | h | h
    · exact .inl h
    · simp at h
    · exact .inr (.inr h)

theorem trans (h : Extends own s t) (h' : Extends own t u) : Extends own s u where
  toFrame := h.toFrame.trans h'.toFrame
  length := h.length.trans h'.length
  stored b hb hown := by
    obtain ⟨ls, hls, retro⟩ := h.stored b hb hown
    obtain ⟨ks, hks, retro'⟩ := h'.stored b (hb.trans_le h.length) hown
    refine ⟨ls ++ ks, by rw [hks, hls, List.map_append, List.append_assoc], ?_⟩
    refine (retro.append retro' ?_).congr ?_
    · rintro a v w ⟨-, hm⟩ ⟨hp, -⟩
      rw [hm] at hp
      exact Home.noConfusion hp
    · intro a v
      constructor
      · rintro (⟨hp, hm⟩ | ⟨hp, hm⟩)
        · exact ⟨hp, h'.memory a hm⟩
        · rcases h.origin a b v hp with hs | hs | hs
          · exact ⟨hs, hm⟩
          · exact absurd hs hown
          · omega
      · rintro ⟨hp, hm⟩
        rcases h.pending a b v hp with ht | ht
        · exact .inr ⟨ht, hm⟩
        · exact .inl ⟨hp, ht⟩
  memory a hm := h'.memory a (h.memory a hm)
  pending a b v hp := by
    rcases h.pending a b v hp with ht | ht
    · exact h'.pending a b v ht
    · exact .inr (h'.memory a ht)
  origin a b v hp := by
    have hlen := h.length
    have hlen' := h'.length
    rcases h'.origin a b v hp with ht | ht | ht
    · rcases h.origin a b v ht with hs | hs | hs
      · exact .inl hs
      · exact .inr (.inl hs)
      · exact .inr (.inr ⟨hs.1, by omega⟩)
    · exact .inr (.inl ht)
    · exact .inr (.inr ⟨by omega, ht.2⟩)

theorem undefined_before (h : Extends own s t) {a : String} (ht : t.home a = .undefined) :
    s.home a = .undefined := by
  cases hs : s.home a with
  | undefined => rfl
  | memory => simp [h.memory a hs] at ht
  | pending b v => rcases h.pending a b v hs with hp | hp <;> simp [hp] at ht

theorem undefined_or_pending (h : Extends own s t) {a : String} {b : Nat} {v : ValueId}
    (ht : t.home a = .pending b v) : s.home a = .undefined ∨ s.home a = .pending b v := by
  cases hs : s.home a with
  | undefined => exact .inl rfl
  | memory => simp [h.memory a hs] at ht
  | pending c w =>
    rcases h.pending a c w hs with hp | hp
    · exact .inr (hp.symm.trans ht)
    · simp [hp] at ht

private theorem of_alike (h : Alike s t) : Extends own s t :=
  .of_same_homes h.frame (by rw [h.blocks]) (fun _ _ _ => by rw [h.blocks]) h.home

private theorem emit (s : State) (op : Staged) : Extends (some s.current) s (s.emit op) := by
  refine .of_same_homes ⟨rfl, rfl, rfl⟩ ?_ ?_ fun _ => rfl
  · simp [State.emit, State.emitInto]
  · intro b _ hb
    exact Blocks.contents_emit_of_ne _ _ _ _ (by simpa using hb)

end Extends

namespace Write

variable {s t : State} {name : String} {r : Option ValueId}

theorem frame (h : Write s name r t) : Frame s t := by
  cases h <;> assumption

theorem length_blocks (h : Write s name r t) : t.blocks.length = s.blocks.length := by
  cases h with
  | define _ _ blocks => rw [blocks]
  | promote _ _ blocks => rw [blocks, Blocks.length_emit]
  | mark _ _ blocks => rw [blocks]
  | stay _ _ blocks => rw [blocks]

theorem home_of_ne (h : Write s name r t) {x : String} (hx : x ≠ name) : t.home x = s.home x := by
  cases h with
  | define _ _ _ _ home => rw [home, if_neg hx]
  | promote _ _ _ _ _ home => rw [home, if_neg hx]
  | mark _ _ _ _ _ home => rw [home, if_neg hx]
  | stay _ _ _ _ _ home => rw [home]

theorem moves (h : Write s name none t) :
    (∀ x, t.home x = if x = name then .memory else s.home x) ∧ t.taken = s.taken ∧
      t.counter = s.counter := by
  cases h with
  | promote _ _ _ taken counter home => exact ⟨home, taken, counter⟩
  | mark _ _ _ taken counter home => exact ⟨home, taken, counter⟩
  | stay _ before _ taken counter home =>
    refine ⟨fun x => ?_, taken, counter⟩
    rw [home x]
    split
    · subst x
      exact before
    · rfl

theorem pending_before {x : String} {b : Nat} {v : ValueId} (h : Write s name none t)
    (hp : t.home x = .pending b v) : s.home x = .pending b v := by
  rw [h.moves.1 x] at hp
  split at hp
  · exact Home.noConfusion hp
  · exact hp

/-- A write appends a store where the written variable was pending, and nothing elsewhere. -/
theorem stored (h : Write s name r t) {b : Nat} (hb : b < s.blocks.length) : ∃ ls : List Late,
    t.blocks.contents b = s.blocks.contents b ++ ls.map Late.staged ∧
      Retro (fun a v => s.home a = .pending b v ∧ t.home a = .memory) ls := by
  have hname : ∀ {a v}, s.home a = .pending b v → t.home a = .memory → a = name := by
    intro a v hp hm
    by_contra ha
    rw [h.home_of_ne ha, hp] at hm
    exact Home.noConfusion hm
  have hnone : t.blocks = s.blocks → (∀ v, s.home name = .pending b v → t.home name ≠ .memory) →
      ∃ ls : List Late, t.blocks.contents b = s.blocks.contents b ++ ls.map Late.staged ∧
        Retro (fun a v => s.home a = .pending b v ∧ t.home a = .memory) ls := by
    intro hblocks hne
    refine ⟨[], by simp [hblocks], .nil ?_⟩
    rintro a v ⟨hp, hm⟩
    have ha := hname hp hm
    subst ha
    exact hne v hp hm
  cases h with
  | define _ before blocks _ _ => exact hnone blocks (by simp [before])
  | @promote _ block value ty _ before blocks _ _ home =>
    by_cases hblock : b = block
    · subst hblock
      refine ⟨[(name, value, ty)], ?_, .singleton ty ?_⟩
      · rw [blocks, Blocks.contents_emit_self _ _ _ hb]
        rfl
      · intro a v
        constructor
        · rintro ⟨hp, hm⟩
          have ha := hname hp hm
          subst ha
          rw [before] at hp
          cases hp
          exact ⟨rfl, rfl⟩
        · rintro ⟨rfl, rfl⟩
          exact ⟨before, by rw [home, if_pos rfl]⟩
    · refine ⟨[], ?_, .nil ?_⟩
      · rw [blocks, Blocks.contents_emit_of_ne _ _ _ _ hblock]
        simp
      · rintro a v ⟨hp, hm⟩
        have ha := hname hp hm
        subst ha
        rw [before] at hp
        cases hp
        exact hblock rfl
  | mark _ before blocks _ _ _ => exact hnone blocks (by simp [before])
  | stay _ before blocks _ _ _ => exact hnone blocks (by simp [before])

theorem extension (h : Write s name r t) : Extends (r.map fun _ => s.current) s t where
  toFrame := h.frame
  length := h.length_blocks.ge
  stored b hb _ := h.stored hb
  memory a hm := by
    by_cases ha : a = name
    · subst ha
      cases h with
      | define _ before => simp [before] at hm
      | promote _ before => simp [before] at hm
      | mark _ before => simp [before] at hm
      | stay _ _ _ _ _ home => rw [home, hm]
    · rw [h.home_of_ne ha, hm]
  pending a b v hp := by
    by_cases ha : a = name
    · subst ha
      cases h with
      | define _ before => simp [before] at hp
      | promote _ _ _ _ _ home => exact .inr (by rw [home, if_pos rfl])
      | mark _ before => simp [before] at hp
      | stay _ before => simp [before] at hp
    · exact .inl (by rw [h.home_of_ne ha, hp])
  origin a b v hp := by
    by_cases ha : a = name
    · subst ha
      cases h with
      | define _ _ _ _ home =>
        rw [home, if_pos rfl] at hp
        cases hp
        exact .inr (.inl rfl)
      | promote _ _ _ _ _ home => simp [home] at hp
      | mark _ _ _ _ _ home => simp [home] at hp
      | stay _ before _ _ _ home => simp [home, before] at hp
    · exact .inl (by rw [← h.home_of_ne ha, hp])

end Write

/-- The state `t` is `s` with the operators `hs` appended to the current block, each of which has drawn
one number. -/
structure Appended (s : State) (hs : List Head) (t : State) : Prop where
  scopes : t.scopes = s.scopes
  nesting : t.nesting = s.nesting
  sites : t.sites = s.sites
  types : t.types = s.types
  taken : t.taken = s.taken
  counter : t.counter = s.counter + hs.length
  blocks : t.blocks = hs.foldl (fun bs h => bs.emit s.current (.ofHead h)) s.blocks

namespace Appended

variable {s t t' : State} {hs : List Head}

theorem current (h : Appended s hs t) : t.current = s.current := by
  simp only [State.current, h.nesting]

theorem trans {ks : List Head} (h : Appended s hs t) (h' : Appended t ks t') :
    Appended s (hs ++ ks) t' where
  scopes := h'.scopes.trans h.scopes
  nesting := h'.nesting.trans h.nesting
  sites := h'.sites.trans h.sites
  types := h'.types.trans h.types
  taken := h'.taken.trans h.taken
  counter := by rw [h'.counter, h.counter, List.length_append, Nat.add_assoc]
  blocks := by rw [h'.blocks, h.blocks, h.current, List.foldl_append]

private theorem frame (h : Appended s hs t) : Frame s t := ⟨h.nesting, h.sites, by rw [h.scopes]⟩

theorem home (h : Appended s hs t) (x : String) : t.home x = s.home x := State.home_congr s x h.scopes

end Appended

namespace Blocks

private theorem length_foldl_emit (bs : Blocks) (b : Nat) (hs : List Head) :
    (hs.foldl (fun bs h => bs.emit b (.ofHead h)) bs).length = bs.length := by
  induction hs generalizing bs with
  | nil => rfl
  | cons h hs ih => rw [List.foldl_cons, ih, length_emit]

private theorem contents_foldl_emit_self (bs : Blocks) (b : Nat) (hs : List Head) (hb : b < bs.length) :
    (hs.foldl (fun bs h => bs.emit b (.ofHead h)) bs).contents b =
      bs.contents b ++ hs.map (Staged.ofHead ·) := by
  induction hs generalizing bs with
  | nil => simp
  | cons h hs ih =>
    rw [List.foldl_cons, ih _ (by rwa [length_emit]), contents_emit_self _ _ _ hb, List.map_cons,
      List.append_assoc]
    rfl

private theorem contents_foldl_emit_of_ne (bs : Blocks) (b c : Nat) (hs : List Head) (h : c ≠ b) :
    (hs.foldl (fun bs h => bs.emit b (.ofHead h)) bs).contents c = bs.contents c := by
  induction hs generalizing bs with
  | nil => rfl
  | cons _ hs ih => rw [List.foldl_cons, ih, contents_emit_of_ne _ _ _ _ h]

end Blocks

namespace Appended

variable {s t : State} {hs : List Head}

theorem length_blocks (h : Appended s hs t) : t.blocks.length = s.blocks.length := by
  rw [h.blocks, Blocks.length_foldl_emit]

theorem contents_current (h : Appended s hs t) (hc : s.current < s.blocks.length) :
    t.blocks.contents s.current = s.blocks.contents s.current ++ hs.map (Staged.ofHead ·) := by
  rw [h.blocks, Blocks.contents_foldl_emit_self _ _ _ hc]

theorem contents_of_ne (h : Appended s hs t) {b : Nat} (hb : b ≠ s.current) :
    t.blocks.contents b = s.blocks.contents b := by
  rw [h.blocks, Blocks.contents_foldl_emit_of_ne _ _ _ _ hb]

theorem extension (h : Appended s hs t) : Extends (some s.current) s t :=
  .of_same_homes h.frame h.length_blocks.ge (fun _ _ hb => h.contents_of_ne (by simpa using hb)) h.home

end Appended

theorem Flat.appended {s t : State} {reads : List String} {hs : List Head} {pool : List ValueId}
    (flat : Flat s reads hs pool t) : Appended s hs t := by
  induction flat with
  | start => exact ⟨rfl, rfl, rfl, rfl, rfl, rfl, rfl⟩
  | load flat home ih =>
    rw [State.read_memory home]
    exact ih.trans ⟨rfl, rfl, rfl, rfl, rfl, rfl, rfl⟩
  | value flat home ih => exact ih
  | op flat computes known ih => exact ih.trans ⟨rfl, rfl, rfl, rfl, rfl, rfl, rfl⟩
  | drop flat known used ih => exact ih

/-- The parameters of a function get values held in its entry block. -/
inductive Binds (entry : Nat) : State → List String → List ValueId → State → Prop
  | nil {s : State} : Binds entry s [] [] s
  | cons {s t u : State} {name : String} {value : ValueId} {names : List String}
      {values : List ValueId} (frame : Frame s t) (blocks : t.blocks = s.blocks)
      (fresh : Fresh s name value t)
      (home : ∀ x, t.home x = if x = name then .pending entry value else s.home x)
      (rest : Binds entry t names values u) : Binds entry s (name :: names) (value :: values) u

theorem Lower.binds_of_bindParams {entry : Nat} {params : List Param} {s t : State}
    {formals : List (ValueId × Ty)} (run : Runs (bindParams entry params) s formals t) :
    Binds entry s (params.map Param.name) (formals.map Prod.fst) t := by
  induction params generalizing s formals with
  | nil =>
    simp only [bindParams, runs_pure] at run
    obtain ⟨rfl, rfl⟩ := run
    exact .nil
  | cons p rest ih =>
    simp only [bindParams, runs_bind, runs_step, runs_pure] at run
    obtain ⟨value, s₁, hbind, more, s₂, hmore, rfl, rfl⟩ := run
    obtain ⟨fresh, frame, blocks, home⟩ := s.freshDefinition_define p.name entry
    have hvalue : (s.freshDefinition p.name).1 = value := congrArg Prod.fst hbind
    have hstate : ((s.freshDefinition p.name).2.defineIn p.name (s.freshDefinition p.name).1
        entry).declare p.name (annotatedTy? p.annot) = s₁ := congrArg Prod.snd hbind
    subst hvalue hstate
    have same : Alike ((s.freshDefinition p.name).2.defineIn p.name (s.freshDefinition p.name).1 entry)
        _ := .declare p.name (annotatedTy? p.annot)
    exact .cons (frame.trans same.frame) (same.blocks.trans blocks) (fresh.before same)
      (fun x => (same.home x).trans (home x)) (ih hmore)

namespace Binds

variable {entry : Nat} {s t : State} {names : List String} {values : List ValueId}

theorem frame (h : Binds entry s names values t) : Frame s t := by
  induction h with
  | nil => exact ⟨rfl, rfl, rfl⟩
  | cons frame _ _ _ _ ih => exact frame.trans ih

private theorem blocks (h : Binds entry s names values t) : t.blocks = s.blocks := by
  induction h with
  | nil => rfl
  | cons _ blocks _ _ _ ih => rw [ih, blocks]

theorem home (h : Binds entry s names values t) (x : String) :
    if x ∈ names then ∃ v ∈ values, t.home x = .pending entry v else t.home x = s.home x := by
  induction h with
  | nil => simp
  | @cons s t u name value names values _ _ _ home _ ih =>
    by_cases hx : x ∈ names
    · rw [if_pos hx] at ih
      obtain ⟨v, hv, hh⟩ := ih
      rw [if_pos (List.mem_cons_of_mem _ hx)]
      exact ⟨v, List.mem_cons_of_mem _ hv, hh⟩
    · rw [if_neg hx, home x] at ih
      by_cases hn : x = name
      · rw [if_pos (by simp [hn])]
        exact ⟨value, by simp, by rw [ih, if_pos hn]⟩
      · rw [if_neg (by simp [hn, hx]), ih, if_neg hn]

end Binds

namespace Extends

variable {s t u v : State}

theorem congr {own : Option Nat} (h : Extends own s t) (hs : SameVars s u) (ht : SameVars t v)
    (sites : v.sites = u.sites) : Extends own u v where
  nesting := by rw [ht.nesting, h.nesting, hs.nesting]
  sites := sites
  outer := by rw [ht.scopes, h.outer, hs.scopes]
  length := by rw [ht.blocks, hs.blocks]; exact h.length
  stored b hb hown := by
    rw [hs.blocks] at hb
    obtain ⟨ls, hls, retro⟩ := h.stored b hb hown
    exact ⟨ls, by rw [ht.blocks, hs.blocks, hls], retro.congr fun a v => by rw [hs.home, ht.home]⟩
  memory a hm := by
    rw [hs.home] at hm
    rw [ht.home, h.memory a hm]
  pending a b v hp := by
    rw [hs.home] at hp
    rw [ht.home]
    exact h.pending a b v hp
  origin a b v hp := by
    rw [ht.home] at hp
    rw [hs.home, hs.blocks, ht.blocks]
    exact h.origin a b v hp

theorem emitted (h : Extends (some s.current) s t) (op : Staged) :
    Extends (some s.current) s (t.emit op) := by
  refine h.trans ?_
  rw [← h.current]
  exact .emit t op

theorem then_emit (h : Extends (some s.current) s t) (op : Staged)
    (rest : Extends (some (t.emit op).current) (t.emit op) u) : Extends (some s.current) s u := by
  refine (h.emitted op).trans ?_
  rwa [← h.current]

/-- A region that has been left: only stores of moved variables are added to the blocks before it. -/
theorem region (h : Extends (some s.blocks.length) s.enter t) (left : Left t s.blocks.length u) :
    Extends none s u := by
  have hnest : s.blocks.length :: u.nesting = s.blocks.length :: s.nesting :=
    left.nesting.symm.trans h.nesting
  have hlen : s.blocks.length + 1 ≤ t.blocks.length := by
    have hle := h.length
    rwa [show s.enter.blocks.length = s.blocks.length + 1 from Blocks.length_extend _] at hle
  refine ⟨⟨(List.cons.inj hnest).2, left.sites.trans h.sites, ?_⟩, ?_, ?_, ?_, ?_, ?_⟩
  · rw [left.scopes]
    exact h.outer
  · rw [left.blocks]
    omega
  · intro b hb _
    obtain ⟨ls, hls, retro⟩ := h.stored b (by
      rw [show s.enter.blocks.length = s.blocks.length + 1 from Blocks.length_extend _]
      omega) (by simpa using hb.ne)
    refine ⟨ls, ?_, retro.congr fun a v => by rw [left.home]; rfl⟩
    rw [left.blocks, hls]
    exact congrArg (· ++ _) (Blocks.contents_extend _ _)
  · intro a hm
    rw [left.home]
    exact h.memory a hm
  · intro a b v hp
    rw [left.home]
    exact h.pending a b v hp
  · intro a b v hp
    rw [left.home] at hp
    rw [left.blocks]
    rcases h.origin a b v hp with hs | hs | hs
    · exact .inl hs
    · cases hs
      exact .inr (.inr ⟨le_rfl, hlen⟩)
    · rw [show s.enter.blocks.length = s.blocks.length + 1 from Blocks.length_extend _] at hs
      exact .inr (.inr ⟨by omega, hs.2⟩)

end Extends

namespace Binds

variable {s t : State} {names : List String} {values : List ValueId} {name : String} {ty : Ty}
  (binds : Binds s.blocks.length (s.declare name ty).pushFunction.enter names values t)

include binds

theorem entry : t.current = s.blocks.length ∧ t.blocks = s.blocks.extend ∧ t.scopes.tail = s.scopes ∧
    t.sites = .function :: s.sites ∧ t.nesting = s.blocks.length :: s.nesting :=
  ⟨binds.frame.current, binds.blocks, binds.frame.outer, binds.frame.sites, binds.frame.nesting⟩

theorem inFunction : t.inFunction = true := by
  obtain ⟨-, -, -, hsites, -⟩ := binds.entry
  simp [State.inFunction, State.site, hsites]

theorem entry_home (x : String) : if x ∈ names then ∃ v ∈ values, t.home x = .pending s.blocks.length v
    else t.home x = .undefined :=
  binds.home x

theorem of_pending {x : String} {b : Nat} {v : ValueId} (hp : t.home x = .pending b v) :
    x ∈ names ∧ v ∈ values ∧ b = s.blocks.length := by
  have hhome := binds.entry_home x
  split at hhome
  · rename_i hx
    obtain ⟨w, hw, hv⟩ := hhome
    rw [hp] at hv
    cases hv
    exact ⟨hx, hw, rfl⟩
  · rw [hp] at hhome
    exact Home.noConfusion hhome

theorem not_memory (x : String) : ¬ t.home x = .memory := by
  intro hm
  have hhome := binds.entry_home x
  split at hhome
  · obtain ⟨v, -, hv⟩ := hhome
    rw [hm] at hv
    exact Home.noConfusion hv
  · rw [hm] at hhome
    exact Home.noConfusion hhome

end Binds

theorem State.popFunction_scopes {s t u v : State} (hscopes : t.scopes.tail = s.scopes)
    (frame : Frame t u) (left : Left u s.blocks.length v) : v.popFunction.scopes = s.scopes := by
  rw [← hscopes, ← frame.outer, ← left.scopes]
  rfl

/-- A function that has been left: the scope around it is as before. -/
theorem Extends.function {s t u v : State} {names : List String} {values : List ValueId}
    {name : String} {ty : Ty}
    (binds : Binds s.blocks.length (s.declare name ty).pushFunction.enter names values t)
    (h : Extends (some t.current) t u) (left : Left u s.blocks.length v) :
    Extends none s v.popFunction := by
  obtain ⟨hcurrent, hblocks, hscopes, hsites, hnesting⟩ := binds.entry
  have hnest : s.blocks.length :: v.nesting = s.blocks.length :: s.nesting :=
    left.nesting.symm.trans (h.nesting.trans hnesting)
  have hlen : t.blocks.length = s.blocks.length + 1 := by rw [hblocks, Blocks.length_extend]
  have hpop := State.popFunction_scopes hscopes h.toFrame left
  refine .of_same_homes ⟨(List.cons.inj hnest).2, ?_, by rw [hpop]⟩ ?_ ?_ fun x =>
    State.home_congr s x hpop
  · simp only [State.popFunction, left.sites, h.sites, hsites, List.tail_cons]
  · have hle := h.length
    rw [show v.popFunction.blocks = u.blocks from left.blocks]
    omega
  · intro b hb _
    obtain ⟨ls, hls, retro⟩ := h.stored b (by omega) (by rw [hcurrent]; simpa using hb.ne)
    -- no variable of the inner scope is pending in a block that is older than the function
    have hnil : ls = [] := retro.eq_nil (by
      rintro a w ⟨hp, -⟩
      exact hb.ne (binds.of_pending hp).2.2)
    rw [show v.popFunction.blocks = u.blocks from left.blocks, hls, hnil, hblocks, List.map_nil,
      List.append_nil, Blocks.contents_extend]

namespace Binds

variable {s t u v : State} {names : List String} {values : List ValueId} {name : String} {ty : Ty}
  (binds : Binds s.blocks.length (s.declare name ty).pushFunction.enter names values t)

include binds

theorem home_popFunction (frame : Frame t u) (left : Left u s.blocks.length v) (x : String) :
    v.popFunction.home x = s.home x := by
  obtain ⟨-, -, hscopes, -, -⟩ := binds.entry
  exact State.home_congr s x (State.popFunction_scopes hscopes frame left)

theorem emitted (h : Extends (some t.current) t u) (left : Left u s.blocks.length v) (op : Staged) :
    Extends (some s.current) s (v.popFunction.emit op) :=
  ((Extends.function binds h left).weaken _).emitted op

end Binds

theorem Settles.stored {m t : State} {args : List ValueId} {writes : List Act} {own : Head}
    (h : Settles m args writes own t) (hcur : m.current < m.blocks.length) :
    t.blocks.length = m.blocks.length ∧ ∃ ls : List Late,
      t.blocks.contents m.current = m.blocks.contents m.current ++ ls.map Late.staged ∧
        Retro (fun a v => m.home a = .pending m.current v ∧ t.home a = .memory) ls := by
  cases h with
  | plain =>
    refine ⟨rfl, [], by simp, .nil ?_⟩
    rintro a v ⟨hp, hm⟩
    rw [hp] at hm
    exact Home.noConfusion hm
  | define _ _ _ _ write => exact ⟨write.length_blocks, write.stored hcur⟩
  | store _ _ write => exact ⟨write.length_blocks, write.stored hcur⟩
  | through _ _ write => exact ⟨write.length_blocks, write.stored hcur⟩

private theorem Settles.extension {m t : State} {args : List ValueId} {writes : List Act} {own : Head}
    (h : Settles m args writes own t) : Extends (some m.current) m t := by
  cases h with
  | plain => exact .refl _ m
  | define _ _ _ _ write => exact write.extension
  | store _ _ write => exact write.extension.weaken _
  | through _ _ write => exact write.extension.weaken _

theorem Simple.extension {s t : State} {st : Stmt} {own : Head} (h : Simple s st own t) :
    Extends (some s.current) s t := by
  obtain ⟨s₀, reads, hs, args, m, writes, same, flat, settles, -⟩ := h.settles
  have happ := flat.appended.extension
  have hsettles := settles.extension
  rw [flat.appended.current] at hsettles
  rw [same.current] at happ hsettles
  exact (Extends.of_alike same).trans (happ.trans hsettles)

theorem Extends.of_loop {s u v t : State} {reads : List String} {hs : List Head} {x : Operand}
    {writes : List Act} (flat : Flat s.enter reads hs [x.1] u)
    (leave : (u.emit (.ofHead (yieldHead x))).leave? s.blocks.length = some v)
    (written : writes = [] ∧ t = v ∨ ∃ name, writes = [.touch name] ∧ Write v name none t) :
    Extends none s t := by
  have hbody : Extends (some s.blocks.length) s.enter (u.emit (.ofHead (yieldHead x))) := by
    refine flat.appended.extension.trans ?_
    rw [← flat.appended.current]
    exact .emit u _
  have hregion := hbody.region (State.left_of_leave? leave)
  obtain ⟨-, rfl⟩ | ⟨name, -, write⟩ := written
  · exact hregion
  · exact hregion.trans write.extension

theorem Opening.extension {s t : State} {pre : List Act} {hs : List Head} {slots : List Slot}
    {regions : List Region} {args : List ValueId} (h : Opening s pre hs slots regions args t) :
    Extends (some s.current) s t := by
  cases h with
  | inline flat => exact flat.appended.extension
  | loop flat leave written => exact (Extends.of_loop flat leave written).weaken _

theorem Opened.bodies {s t u m : State} {st : Stmt} {own : Head} {slots : List Slot}
    {bodies : List (List Stmt)} {close : State → State} {pre : List Act} {hs : List Head}
    {regions : List Region} (h : Opened s st own slots bodies t close pre hs regions m)
    (inner : Extends none t u) : Extends none m (close u) := by
  have hsites := h.opening.extension.sites
  exact inner.congr h.start.symm (h.finish u) (by rw [h.sites u hsites inner.sites, hsites])

theorem Opened.emitted {s t u m : State} {st : Stmt} {own : Head} {slots : List Slot}
    {bodies : List (List Stmt)} {close : State → State} {pre : List Act} {hs : List Head}
    {regions : List Region} (h : Opened s st own slots bodies t close pre hs regions m)
    (inner : Extends none t u) (op : Staged) : Extends (some s.current) s ((close u).emit op) :=
  (h.opening.extension.trans ((h.bodies inner).weaken _)).emitted op

mutual

/-- A pass over statements appends to the current block, and leaves all others as `Extends` says. -/
theorem Lowers.extension : ∀ {s s' : State} {stmts : List Stmt}, Lowers s stmts s' →
    Extends (some s.current) s s'
  | s, _, _, .nil => .refl _ s
  | _, _, _, .simple one rest => one.extension.then_emit _ rest.extension
  | _, _, _, .compound opens regions rest => by
    obtain ⟨pre, hs, slots, m, opened⟩ := opens.opened
    exact (opened.opening.extension.trans ((opened.bodies regions.extension).weaken _)).then_emit _
      rest.extension
  | _, _, _, .function _ bind inner leave rest => by
    have hinner := Extends.function (Lower.binds_of_bindParams bind) inner.extension
      (State.left_of_leave? leave)
    exact (hinner.weaken _).then_emit _ rest.extension

theorem LowersBodies.extension : ∀ {s s' : State} {bodies : List (List Stmt)} {slots : List Slot},
    LowersBodies s bodies slots s' → Extends none s s'
  | s, _, _, _, .nil => .refl _ s
  | _, _, _, _, .cons inner leave rest =>
    (inner.extension.region (State.left_of_leave? leave)).trans rest.extension

end

end RegionIR
