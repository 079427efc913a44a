import RegionIR.Proofs.Growth
/-!
# The history of the blocks

A run opens blocks and appends operators to them, also to blocks that have been left. `Lower.Logs` gives
the list of these changes in the order in which they happen. Since every operator goes to a block that is
open, the contents of a block are what has been appended to it, in that order.
-/
namespace RegionIR

open Lower (Runs)

/-- Something that happens to the blocks. -/
inductive Change where
  | opened
  | appended (block : Nat) (op : Staged)

namespace Change

def op? : Change → Option Staged
  | opened => none
  | appended _ op => some op

def opInto? (block : Nat) : Change → Option Staged
  | opened => none
  | appended b op => if b = block then some op else none

def isOpened : Change → Bool
  | opened => true
  | appended .. => false

def emitted (cs : List Change) : List Staged := cs.filterMap op?

/-- The operators that have been appended to one block, in the order of their emission. -/
def emittedInto (block : Nat) (cs : List Change) : List Staged := cs.filterMap (opInto? block)

def openings (cs : List Change) : Nat := cs.countP isOpened

@[simp] theorem emitted_append (cs ds : List Change) : emitted (cs ++ ds) = emitted cs ++ emitted ds :=
  List.filterMap_append

@[simp] theorem emittedInto_append (block : Nat) (cs ds : List Change) :
    emittedInto block (cs ++ ds) = emittedInto block cs ++ emittedInto block ds :=
  List.filterMap_append

@[simp] theorem openings_append (cs ds : List Change) : openings (cs ++ ds) = openings cs + openings ds :=
  List.countP_append

private theorem mem_emitted_of_emittedInto {block : Nat} {cs : List Change} {op : Staged}
    (h : op ∈ emittedInto block cs) : op ∈ emitted cs := by
  obtain ⟨c, hc, hop⟩ := List.mem_filterMap.mp h
  refine List.mem_filterMap.mpr ⟨c, hc, ?_⟩
  cases c with
  | opened => exact absurd hop (by simp [opInto?])
  | appended b op' =>
    simp only [opInto?] at hop
    split at hop
    · exact hop
    · exact absurd hop (by simp)

end Change

namespace Lower

variable {α β : Type}

/-- The step does this to the blocks, whatever they hold. -/
def Alters (x : Lower α) (s : State) (f : Blocks → Blocks) : Prop :=
  ∀ bs, ∃ a t, Runs x { s with blocks := bs } a t ∧ t.blocks = f bs

/-- The changes that a run makes, in the order in which it makes them. -/
inductive Logs : {α : Type} → Lower α → State → List Change → α → State → Prop
  | quiet {α : Type} {x : Lower α} {s s' : State} {a : α} (run : Runs x s a s')
      (alters : Alters x s id) : Logs x s [] a s'
  | opened {α : Type} {x : Lower α} {s s' : State} {a : α} (run : Runs x s a s')
      (alters : Alters x s Blocks.extend) : Logs x s [.opened] a s'
  | appended {α : Type} {x : Lower α} {s s' : State} {a : α} {block : Nat} {op : Staged}
      (run : Runs x s a s') (alters : Alters x s (·.emit block op)) : Logs x s [.appended block op] a s'
  | bind {α β : Type} {x : Lower α} {f : α → Lower β} {s t u : State} {cs ds : List Change} {a : α} {b : β}
      (first : Logs x s cs a t) (second : Logs (f a) t ds b u) : Logs (x >>= f) s (cs ++ ds) b u

theorem Logs.runs {x : Lower α} {s s' : State} {cs : List Change} {a : α} (h : Logs x s cs a s') :
    Runs x s a s' := by
  induction h with
  | quiet run => exact run
  | opened run => exact run
  | appended run => exact run
  | bind _ _ first second => exact runs_bind.mpr ⟨_, _, first, second⟩

private theorem Alters.blocks_eq {x : Lower α} {s s' : State} {a : α} {f : Blocks → Blocks}
    (h : Alters x s f) (run : Runs x s a s') : s'.blocks = f s.blocks := by
  obtain ⟨b, t, run', hblocks⟩ := h s.blocks
  rw [Runs] at run run'
  rw [run] at run'
  cases run'
  exact hblocks

end Lower

private theorem Blocks.flatten_emit_perm (bs : Blocks) {block : Nat} (isOpen : block < bs.length)
    (op : Staged) :
    (bs.emit block op).flatten.Perm (bs.flatten ++ [op]) := by
  induction bs generalizing block with
  | nil => simp at isOpen
  | cons items rest ih =>
    cases block with
    | zero =>
      have hzero : Blocks.emit (items :: rest) 0 op = (items ++ [op]) :: rest := rfl
      rw [hzero, List.flatten_cons, List.flatten_cons, List.append_assoc, List.append_assoc]
      exact List.Perm.append_left items List.perm_append_comm
    | succ block =>
      have hsucc : Blocks.emit (items :: rest) (block + 1) op = items :: Blocks.emit rest block op := rfl
      rw [hsucc, List.flatten_cons, List.flatten_cons, List.append_assoc]
      exact List.Perm.append_left items (ih (by simpa using isOpen))

namespace Lower

variable {α β : Type}

/-- The changes account for all that the blocks hold, and the operators are as they should be. -/
structure Records (P : Staged → Prop) (x : Lower α) (s : State) (cs : List Change) (a : α) (s' : State) :
    Prop where
  logs : Logs x s cs a s'
  contents : ∀ b, s'.blocks.contents b = s.blocks.contents b ++ Change.emittedInto b cs
  length : s'.blocks.length = s.blocks.length + Change.openings cs
  total : s'.blocks.flatten.Perm (s.blocks.flatten ++ Change.emitted cs)
  emitted : ∀ op ∈ Change.emitted cs, P op

namespace Records

variable {P : Staged → Prop} {x : Lower α} {s s' t : State} {a : α}

private theorem quiet (run : Runs x s a s') (alters : Alters x s id) : Records P x s [] a s' where
  logs := .quiet run alters
  contents b := by
    rw [show s'.blocks = s.blocks from alters.blocks_eq run]
    exact (List.append_nil _).symm
  length := by
    rw [show s'.blocks = s.blocks from alters.blocks_eq run]
    rfl
  total := by
    rw [show s'.blocks = s.blocks from alters.blocks_eq run]
    exact .of_eq (List.append_nil _).symm
  emitted := by simp [Change.emitted]

private theorem opened (run : Runs x s a s') (alters : Alters x s Blocks.extend) :
    Records P x s [.opened] a s' where
  logs := .opened run alters
  contents b := by
    rw [alters.blocks_eq run, Blocks.contents_extend]
    exact (List.append_nil _).symm
  length := by
    rw [alters.blocks_eq run, Blocks.length_extend]
    rfl
  total := by
    rw [alters.blocks_eq run, Blocks.extend, List.flatten_append]
    exact .refl _
  emitted := by simp [Change.emitted, Change.op?]

private theorem appended {block : Nat} {op : Staged} (run : Runs x s a s')
    (alters : Alters x s (·.emit block op)) (isOpen : block < s.blocks.length) (hop : P op) :
    Records P x s [.appended block op] a s' where
  logs := .appended run alters
  contents b := by
    rw [alters.blocks_eq run]
    by_cases hb : b = block
    · subst hb
      rw [Blocks.contents_emit_self _ _ _ isOpen]
      simp [Change.emittedInto, Change.opInto?]
    · rw [Blocks.contents_emit_of_ne _ _ _ _ hb]
      simp [Change.emittedInto, Change.opInto?, Ne.symm hb]
  length := by
    rw [alters.blocks_eq run, Blocks.length_emit]
    rfl
  total := by
    rw [alters.blocks_eq run]
    exact Blocks.flatten_emit_perm _ isOpen op
  emitted := by simpa [Change.emitted, Change.op?] using hop

theorem bind {f : α → Lower β} {b : β} {cs ds : List Change} (first : Records P x s cs a t)
    (second : Records P (f a) t ds b s') : Records P (x >>= f) s (cs ++ ds) b s' where
  logs := .bind first.logs second.logs
  contents b := by
    rw [second.contents, first.contents, Change.emittedInto_append, List.append_assoc]
  length := by
    rw [second.length, first.length, Change.openings_append, Nat.add_assoc]
  total := by
    rw [Change.emitted_append, ← List.append_assoc]
    exact second.total.trans (first.total.append_right _)
  emitted := by
    intro op hop
    rw [Change.emitted_append, List.mem_append] at hop
    exact hop.elim (first.emitted op) (second.emitted op)

theorem contents_of_empty {cs : List Change} (records : Records P x {} cs a t) (b : Nat) :
    t.blocks.contents b = Change.emittedInto b cs :=
  records.contents b

theorem all {cs : List Change} (records : Records P x {} cs a t) :
    ∀ b, ∀ staged ∈ t.blocks.contents b, P staged := by
  intro b staged hstaged
  rw [records.contents_of_empty] at hstaged
  exact records.emitted staged (Change.mem_emitted_of_emittedInto hstaged)

end Records

end Lower

/-- There is a block, and the blocks that operators can go to are open: those that lowering is inside of,
and those that hold the value of a variable of some scope. -/
structure State.Housed (s : State) : Prop where
  nonempty : 0 < s.blocks.length
  nesting : ∀ b ∈ s.nesting, b < s.blocks.length
  pending : ∀ a b v, s.home a = .pending b v → b < s.blocks.length
  outer : ∀ scope ∈ s.scopes.tail, ∀ a b v, scope.home a = .pending b v → b < s.blocks.length

namespace State.Housed

variable {s t : State}

theorem current_lt (h : s.Housed) : s.current < s.blocks.length := by
  cases hn : s.nesting with
  | nil => simpa [State.current, hn] using h.nonempty
  | cons top rest => simpa [State.current, hn] using h.nesting top (by simp [hn])

theorem frame (h : s.Housed) (frame : Frame s t) (length : t.blocks.length = s.blocks.length)
    (pending : ∀ a b v, t.home a = .pending b v → b < s.blocks.length) : t.Housed where
  nonempty := by
    rw [length]
    exact h.nonempty
  nesting := by
    rw [length, frame.nesting]
    exact h.nesting
  pending := by
    rw [length]
    exact pending
  outer := by
    rw [length, frame.outer]
    exact h.outer

theorem write {name : String} {value : Option ValueId} (h : s.Housed) (write : Write s name value t) :
    t.Housed := by
  cases write with
  | define frame before blocks fresh home =>
    refine h.frame frame (by rw [blocks]) fun a b v hp => ?_
    rw [home] at hp
    split at hp
    · cases hp
      exact h.current_lt
    · exact h.pending a b v hp
  | promote frame before blocks taken counter home =>
    refine h.frame frame (by rw [blocks, Blocks.length_emit]) fun a b v hp => ?_
    rw [home] at hp
    split at hp
    · exact Home.noConfusion hp
    · exact h.pending a b v hp
  | mark frame before blocks taken counter home =>
    refine h.frame frame (by rw [blocks]) fun a b v hp => ?_
    rw [home] at hp
    split at hp
    · exact Home.noConfusion hp
    · exact h.pending a b v hp
  | stay frame before blocks taken counter home =>
    refine h.frame frame (by rw [blocks]) fun a b v hp => ?_
    rw [home] at hp
    exact h.pending a b v hp

private theorem emitInto (h : s.Housed) (block : Nat) (op : Staged) : (s.emitInto block op).Housed :=
  h.frame ⟨rfl, rfl, rfl⟩ (Blocks.length_emit _ _ _) h.pending

theorem enter (h : s.Housed) : s.enter.Housed := by
  have hlength : s.enter.blocks.length = s.blocks.length + 1 := Blocks.length_extend _
  refine ⟨by omega, ?_, ?_, ?_⟩
  · intro b hb
    rcases List.mem_cons.mp hb with rfl | hb
    · omega
    · exact (h.nesting b hb).trans (by omega)
  · intro a b v hp
    exact (h.pending a b v hp).trans (by omega)
  · intro scope hscope a b v hp
    exact (h.outer scope hscope a b v hp).trans (by omega)

private theorem left {block : Nat} (h : s.Housed) (left : Left s block t) : t.Housed where
  nonempty := by
    rw [left.blocks]
    exact h.nonempty
  nesting b hb := by
    rw [left.blocks]
    exact h.nesting b (by rw [left.nesting]; exact List.mem_cons_of_mem _ hb)
  pending := by
    simp only [left.blocks, left.home]
    exact h.pending
  outer := by
    rw [left.blocks, left.scopes]
    exact h.outer

private theorem scopes (h : s.Housed) {scope : Scope} (hscope : scope ∈ s.scopes) {a : String} {b : Nat}
    {v : ValueId} (hp : scope.home a = .pending b v) : b < s.blocks.length := by
  cases hs : s.scopes with
  | nil => simp [hs] at hscope
  | cons first rest =>
    rw [hs] at hscope
    rcases List.mem_cons.mp hscope with rfl | hscope
    · exact h.pending a b v (by simpa [State.home, State.scope, hs] using hp)
    · exact h.outer scope (by simpa [hs] using hscope) a b v hp

theorem pushFunction (h : s.Housed) : s.pushFunction.Housed where
  nonempty := h.nonempty
  nesting := h.nesting
  pending _ _ _ hp := Home.noConfusion hp
  outer _ hscope _ _ _ hp := h.scopes hscope hp

theorem popFunction (h : s.Housed) : s.popFunction.Housed where
  nonempty := h.nonempty
  nesting := h.nesting
  pending a b v hp := by
    cases hs : s.scopes.tail with
    | nil => simp [State.popFunction, State.home, State.scope, hs, Scope.home, NameMap.find?] at hp
    | cons first rest =>
      refine h.outer first (by simp [hs]) a b v ?_
      simpa [State.popFunction, State.home, State.scope, hs] using hp
  outer scope hscope := h.outer scope (List.mem_of_mem_tail hscope)

theorem sameVars (h : s.Housed) (same : SameVars s t) : t.Housed where
  nonempty := by
    rw [same.blocks]
    exact h.nonempty
  nesting := by
    rw [same.blocks, same.nesting]
    exact h.nesting
  pending := by
    simp only [same.blocks, same.home]
    exact h.pending
  outer := by
    rw [same.blocks, same.scopes]
    exact h.outer

theorem initial : State.Housed State.initial := by
  refine ⟨by simp [State.initial, State.enter, State.record, Blocks.extend], ?_, ?_, ?_⟩
  · intro b hb
    simpa [State.initial, State.enter, State.record, Blocks.extend] using hb
  · intro a b v hp
    exact Home.noConfusion hp
  · intro scope hscope
    exact absurd hscope (by simp [State.initial, State.enter, State.record])

end State.Housed

namespace Lower

variable {α β : Type} {P : Staged → Prop} {Q : α → Prop} {R : β → Prop}

/-- A run of the step from `s` gives a result with `Q`, and all operators that it appends are kept and
have `P`. -/
def EmitsFrom (P : Staged → Prop) (s : State) (x : Lower α) (Q : α → Prop) : Prop :=
  ∀ a s', Runs x s a s' → s'.Housed ∧ Q a ∧ ∃ cs, Records P x s cs a s'

def Emits (P : Staged → Prop) (x : Lower α) (Q : α → Prop) : Prop :=
  ∀ s, s.Housed → EmitsFrom P s x Q

theorem EmitsFrom.bind {s : State} {x : Lower α} {f : α → Lower β} (hx : EmitsFrom P s x Q)
    (hf : ∀ a t, Runs x s a t → t.Housed → Q a → EmitsFrom P t (f a) R) : EmitsFrom P s (x >>= f) R := by
  intro b s' run
  obtain ⟨a, t, hfirst, hsecond⟩ := runs_bind.mp run
  obtain ⟨housed, ha, cs, hcs⟩ := hx a t hfirst
  obtain ⟨housed', hb, ds, hds⟩ := hf a t hfirst housed ha b s' hsecond
  exact ⟨housed', hb, cs ++ ds, hcs.bind hds⟩

/-- A step that cannot fail, and that appends at most one operator, to an open block. -/
theorem EmitsFrom.step {s : State} {f : State → α × State} (h : (f s).2.Housed ∧ Q (f s).1 ∧
      ((∀ bs, (f { s with blocks := bs }).2.blocks = bs) ∨ ∃ block op, block < s.blocks.length ∧ P op ∧
        ∀ bs, (f { s with blocks := bs }).2.blocks = bs.emit block op)) : EmitsFrom P s (step f) Q := by
  intro a s' run
  have hf := runs_step.mp run
  obtain ⟨hhoused, hq, hblocks⟩ := h
  rw [hf] at hhoused hq
  refine ⟨hhoused, hq, ?_⟩
  rcases hblocks with hblocks | ⟨block, op, hlt, hop, hblocks⟩
  · exact ⟨[], .quiet run fun bs => ⟨_, _, runs_step.mpr rfl, hblocks bs⟩⟩
  · exact ⟨_, .appended run (fun bs => ⟨_, _, runs_step.mpr rfl, hblocks bs⟩) hlt hop⟩

namespace Emits

theorem pure {a : α} (h : Q a) : Emits P (pure a : Lower α) Q := by
  intro s housed b s' run
  obtain ⟨rfl, rfl⟩ := runs_pure.mp run
  exact ⟨housed, h, [], .quiet run fun bs => ⟨b, _, runs_pure.mpr ⟨rfl, rfl⟩, rfl⟩⟩

theorem refuse (construct : Construct) (span : Option Span) :
    Emits P (refuse construct span : Lower α) Q := fun _ _ _ _ run => absurd run not_runs_refuse

theorem bind {x : Lower α} {f : α → Lower β} (hx : Emits P x Q) (hf : ∀ a, Q a → Emits P (f a) R) :
    Emits P (x >>= f) R :=
  fun s housed => (hx s housed).bind fun a t _ housed' ha => hf a ha t housed'

theorem guard {c : Prop} [Decidable c] {construct : Construct} {span : Option Span} {f : Unit → Lower α}
    (hf : Emits P (f ()) Q) : Emits P (if c then Lower.refuse construct span >>= f else f ()) Q := by
  split
  · exact bind (Q := fun _ => True) (refuse construct span) fun _ _ => hf
  · exact hf

theorem step {f : State → α × State} (h : ∀ s, s.Housed → (f s).2.Housed ∧ Q (f s).1 ∧
      ((∀ bs, (f { s with blocks := bs }).2.blocks = bs) ∨ ∃ block op, block < s.blocks.length ∧ P op ∧
        ∀ bs, (f { s with blocks := bs }).2.blocks = bs.emit block op)) : Emits P (step f) Q :=
  fun s housed => .step (h s housed)

theorem modify {f : State → State} (hf : ∀ s, s.Housed → (f s).Housed)
    (same : ∀ (s : State) (bs : Blocks), (f { s with blocks := bs }).blocks = bs) :
    Emits P (modify f : Lower PUnit) fun _ => True :=
  step fun s housed => ⟨hf s housed, trivial, .inl fun bs => same s bs⟩

theorem emit {op : Staged} (hop : P op) : Emits P (emit op) fun _ => True :=
  step fun s housed =>
    ⟨housed.emitInto _ op, trivial, .inr ⟨s.current, op, housed.current_lt, hop, fun _ => rfl⟩⟩

theorem get {g : State → β} {f : β → Lower α} (hf : ∀ b, Emits P (f b) Q) :
    Emits P (do f (g (← get))) Q := by
  have hget : Emits P (MonadState.get : Lower State) fun _ => True := by
    intro s housed a s' run
    obtain ⟨rfl, rfl⟩ := runs_get.mp run
    exact ⟨housed, trivial, [], .quiet run fun bs => ⟨_, _, runs_get.mpr ⟨rfl, rfl⟩, rfl⟩⟩
  exact bind hget fun s _ => hf (g s)

private theorem leave (block : Nat) : Emits P (leave block) fun _ => True := by
  intro s housed a s' run
  have hleave := runs_leave.mp run
  have left := State.left_of_leave? hleave
  refine ⟨housed.left left, trivial, [], .quiet run fun bs => ?_⟩
  obtain ⟨t, ht, hblocks⟩ : ∃ t, State.leave? { s with blocks := bs } block = some t ∧ t.blocks = bs := by
    simp only [State.leave?, left.nesting]
    exact ⟨_, if_pos trivial, rfl⟩
  exact ⟨(), t, runs_leave.mpr ht, hblocks⟩

end Emits

theorem EmitsFrom.inBlock {f : Nat → Lower α} {s : State}
    (hf : EmitsFrom P s.enter (f s.blocks.length) Q) : EmitsFrom P s (inBlock f) fun r => Q r.2 := by
  have hrest : EmitsFrom P s.enter (do
      let a ← f s.blocks.length
      leave s.blocks.length
      return (s.blocks.length, a)) fun r => Q r.2 := by
    refine hf.bind fun a t _ housed ha => ?_
    have hend : Emits P (Pure.pure (s.blocks.length, a)) fun r => Q r.2 := .pure ha
    exact Emits.bind (.leave _) (fun _ _ => hend) t housed
  intro r s' run
  obtain ⟨block, t, henter, hinside⟩ := runs_bind.mp run
  have hopened : Records P enter s [.opened] block t :=
    .opened henter fun bs => ⟨_, _, runs_enter.mpr ⟨rfl, rfl⟩, rfl⟩
  obtain ⟨rfl, rfl⟩ := runs_enter.mp henter
  obtain ⟨housed, hr, cs, hcs⟩ := hrest r s' hinside
  exact ⟨housed, hr, _, hopened.bind hcs⟩

theorem EmitsFrom.region {x : Lower Unit} {s : State} (hx : EmitsFrom P s.enter x fun _ => True) :
    EmitsFrom P s (region x) fun slot => slot.label = none := by
  refine EmitsFrom.bind (EmitsFrom.inBlock hx) fun r t _ housed _ => ?_
  have hend : Emits P (Pure.pure (⟨r.1, none⟩ : Slot)) fun slot => slot.label = none := .pure rfl
  exact hend t housed

end Lower

end RegionIR
