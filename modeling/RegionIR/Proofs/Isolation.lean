import RegionIR.Proofs.Variables
import RegionIR.Tree.Build
/-!
# Functions and the state around them

A function definition takes nothing from the variables around it, from the place it stands at or from the
blocks that are there, and it changes none of them. Two runs that start from states of which only the
names and types agree stay in step: `Twins o p s t` relates a state `s` inside of a function that stands
in `o` to a state `t` inside of the same function that stands in `p`.
-/
namespace RegionIR

open Lower (Runs)

/-- The two states know the same types, and name new values alike. -/
structure Naming (s t : State) : Prop where
  declared : ∀ name, s.declared? name = t.declared? name
  taken : ∀ id, id ∈ s.taken ↔ id ∈ t.taken
  counter : s.counter = t.counter

/-- The two states also have equally many blocks. -/
structure Concurs (s t : State) : Prop extends Naming s t where
  length : s.blocks.length = t.blocks.length

/-- What there was in the state `o` is in the state `s`: its scopes below any others, and its blocks with
what they held. -/
structure Untouched (o s : State) : Prop where
  scopes : o.scopes <:+ s.scopes
  blocks : o.blocks <+: s.blocks

/-- The state `s'` has new blocks and is otherwise where `s` was. -/
structure Adds (s : State) (new : Blocks) (s' : State) : Prop where
  scopes : s'.scopes = s.scopes
  sites : s'.sites = s.sites
  nesting : s'.nesting = s.nesting
  blocks : s'.blocks = s.blocks ++ new

/-- The states `s` and `t` agree in all that belongs to a function: the innermost scope, site and block,
and the blocks opened since `o` and `p`, which are the only ones that its variables are held in. Around
it, they are as `o` and `p`. -/
structure Twins (o p s t : State) : Prop extends Naming s t where
  base : o.blocks.length = p.blocks.length
  scopes : ∃ scope : Scope, s.scopes = scope :: o.scopes ∧ t.scopes = scope :: p.scopes ∧
    ∀ a b v, scope.home a = .pending b v → o.blocks.length ≤ b
  sites : ∃ site, s.sites = site :: o.sites ∧ t.sites = site :: p.sites
  nesting : ∃ block, s.nesting = block :: o.nesting ∧ t.nesting = block :: p.nesting ∧
    o.blocks.length ≤ block
  blocks : ∃ new, s.blocks = o.blocks ++ new ∧ t.blocks = p.blocks ++ new

theorem Untouched.refl (s : State) : Untouched s s := ⟨List.suffix_rfl, List.prefix_rfl⟩

theorem Untouched.trans {o s t : State} (first : Untouched o s) (second : Untouched s t) :
    Untouched o t :=
  ⟨first.scopes.trans second.scopes, first.blocks.trans second.blocks⟩

private theorem Naming.typeOf {s t : State} (h : Naming s t) (name : String) :
    s.typeOf name = t.typeOf name := by
  rw [State.typeOf, State.typeOf, h.declared]

private theorem Naming.declare {s t : State} (h : Naming s t) (name : String) (ty : Ty) :
    Naming (s.declare name ty) (t.declare name ty) where
  declared x := by
    by_cases hx : x = name
    · subst hx
      simp [State.declared?, State.declare]
    · have hs := h.declared x
      simp only [State.declared?, State.declare] at hs ⊢
      rw [NameMap.find?_insert_of_ne _ _ _ _ hx, NameMap.find?_insert_of_ne _ _ _ _ hx, hs]
  taken := h.taken
  counter := h.counter

theorem Lower.leave_eq (block : Nat) (s : State) : Lower.leave block s =
    match s.leave? block with
    | some t => .ok () t
    | none => .error (.misnested block) s := by
  simp only [Lower.leave, bind, EStateM.bind, get, getThe, MonadStateOf.get, EStateM.get]
  cases s.leave? block <;> rfl

private theorem Blocks.emit_append (old new : Blocks) {block : Nat} (h : old.length ≤ block)
    (op : Staged) :
    emit (old ++ new) block op = old ++ emit new (block - old.length) op := by
  induction old generalizing block with
  | nil => simp
  | cons first rest ih =>
    obtain ⟨below, rfl⟩ : ∃ below, block = below + 1 :=
      ⟨block - 1, by rw [List.length_cons] at h; omega⟩
    have hrest := ih (by simpa using h)
    simp only [emit] at hrest
    simp [emit, hrest]

namespace Twins

variable {o p s t : State} {name : String}

private theorem scope (h : Twins o p s t) : s.scope = t.scope := by
  obtain ⟨scope, hs, ht, -⟩ := h.scopes
  simp [State.scope, hs, ht]

private theorem home (h : Twins o p s t) (a : String) : s.home a = t.home a := by
  rw [State.home, State.home, h.scope]

private theorem pending (h : Twins o p s t) {a : String} {b : Nat} {v : ValueId}
    (hp : s.home a = .pending b v) : o.blocks.length ≤ b := by
  obtain ⟨scope, hs, -, held⟩ := h.scopes
  simp only [State.home, State.scope, hs] at hp
  exact held a b v hp

private theorem inFunction (h : Twins o p s t) : s.inFunction = t.inFunction := by
  obtain ⟨site, hs, ht⟩ := h.sites
  simp [State.inFunction, State.site, hs, ht]

private theorem current (h : Twins o p s t) : s.current = t.current ∧ o.blocks.length ≤ s.current := by
  obtain ⟨block, hs, ht, hle⟩ := h.nesting
  simpa [State.current, hs, ht] using hle

private theorem length (h : Twins o p s t) : s.blocks.length = t.blocks.length := by
  obtain ⟨new, hs, ht⟩ := h.blocks
  rw [hs, ht, List.length_append, List.length_append, h.base]

private theorem concurs (h : Twins o p s t) : Concurs s t := ⟨h.toNaming, h.length⟩

private theorem untouched (h : Twins o p s t) : Untouched o s ∧ Untouched p t := by
  obtain ⟨scope, hs, ht, -⟩ := h.scopes
  obtain ⟨new, hs', ht'⟩ := h.blocks
  refine ⟨⟨?_, ?_⟩, ⟨?_, ?_⟩⟩
  · rw [hs]
    exact List.suffix_cons _ _
  · rw [hs']
    exact List.prefix_append _ _
  · rw [ht]
    exact List.suffix_cons _ _
  · rw [ht']
    exact List.prefix_append _ _

private theorem record (h : Twins o p s t) (e e' : Event) : Twins o p (s.record e) (t.record e') :=
  ⟨⟨h.declared, h.taken, h.counter⟩, h.base, h.scopes, h.sites, h.nesting, h.blocks⟩

private theorem declare (h : Twins o p s t) (name : String) (ty : Ty) :
    Twins o p (s.declare name ty) (t.declare name ty) :=
  ⟨h.toNaming.declare name ty, h.base, h.scopes, h.sites, h.nesting, h.blocks⟩

private theorem emitInto (h : Twins o p s t) {block : Nat} (inside : o.blocks.length ≤ block)
    (op : Staged) :
    Twins o p (s.emitInto block op) (t.emitInto block op) := by
  obtain ⟨new, hs, ht⟩ := h.blocks
  refine ⟨⟨h.declared, h.taken, h.counter⟩, h.base, h.scopes, h.sites, h.nesting,
    Blocks.emit new (block - o.blocks.length) op, ?_, ?_⟩
  · rw [State.emitInto, hs, Blocks.emit_append _ _ inside]
  · rw [h.base] at inside ⊢
    rw [State.emitInto, ht, Blocks.emit_append _ _ inside]

private theorem emit (h : Twins o p s t) (op : Staged) : Twins o p (s.emit op) (t.emit op) := by
  obtain ⟨hcurrent, hinside⟩ := h.current
  rw [State.emit, State.emit, ← hcurrent]
  exact h.emitInto hinside op

private theorem updateScope (h : Twins o p s t) (f : Scope → Scope)
    (held : ∀ a b v, (f s.scope).home a = .pending b v → o.blocks.length ≤ b) :
    Twins o p (s.updateScope f) (t.updateScope f) := by
  obtain ⟨scope, hs, ht, -⟩ := h.scopes
  refine ⟨⟨h.declared, h.taken, h.counter⟩, h.base, ⟨f s.scope, ?_, ?_, held⟩, h.sites, h.nesting, h.blocks⟩
  · rw [State.updateScope, hs]
    rfl
  · rw [State.updateScope, ht, h.scope]
    rfl

private theorem number (h : Twins o p s t) : Twins o p s.number.2 t.number.2 :=
  ⟨⟨h.declared, h.taken, congrArg (· + 1) h.counter⟩, h.base, h.scopes, h.sites, h.nesting, h.blocks⟩

private theorem freshVersion (h : Twins o p s t) (name : String) :
    (s.freshVersion name).1 = (t.freshVersion name).1 ∧
      Twins o p (s.freshVersion name).2 (t.freshVersion name).2 :=
  ⟨congrArg (ValueId.versioned name) h.counter, h.number⟩

private theorem freshDefinition (h : Twins o p s t) (name : String) :
    (s.freshDefinition name).1 = (t.freshDefinition name).1 ∧
      Twins o p (s.freshDefinition name).2 (t.freshDefinition name).2 := by
  by_cases hs : ValueId.named name ∈ s.taken
  · have ht := (h.taken _).mp hs
    simp only [State.freshDefinition, hs, ht, if_true]
    exact h.freshVersion name
  · have ht : ValueId.named name ∉ t.taken := fun ht => hs ((h.taken _).mpr ht)
    simp only [State.freshDefinition, hs, ht, if_false]
    refine ⟨trivial, ⟨h.declared, ?_, h.counter⟩, h.base, h.scopes, h.sites, h.nesting, h.blocks⟩
    intro id
    simp [h.taken id]

private theorem defineIn (h : Twins o p s t) (name : String) (value : ValueId) {block : Nat}
    (inside : o.blocks.length ≤ block) :
    Twins o p (s.defineIn name value block) (t.defineIn name value block) := by
  refine h.updateScope _ ?_
  intro a b v hp
  rw [Scope.home_define] at hp
  split at hp
  · injection hp with hb
    omega
  · exact h.pending hp

theorem bind (h : Twins o p s t) (name : String) (ty : Ty) {entry : Nat}
    (inside : o.blocks.length ≤ entry) : (s.bind name ty entry).1 = (t.bind name ty entry).1 ∧
      Twins o p (s.bind name ty entry).2 (t.bind name ty entry).2 := by
  obtain ⟨hvalue, hfresh⟩ := h.freshDefinition name
  simp only [State.bind, hvalue]
  exact ⟨trivial, (hfresh.defineIn name _ inside).declare name ty⟩

private theorem read (h : Twins o p s t) (name : String) :
    (s.read name).1 = (t.read name).1 ∧ Twins o p (s.read name).2 (t.read name).2 := by
  have hhome := h.home name
  have hty := h.typeOf name
  cases hs : s.home name with
  | undefined =>
    simp only [State.read, ← hhome, hs, hty]
    exact ⟨trivial, h⟩
  | pending block value =>
    simp only [State.read, ← hhome, hs, hty]
    exact ⟨trivial, h⟩
  | memory =>
    obtain ⟨hvalue, hfresh⟩ := h.freshVersion name
    simp only [State.read, ← hhome, hs, hty, hvalue]
    exact ⟨trivial, (hfresh.emit _).record _ _⟩

private theorem emitResult (h : Twins o p s t) (head : Head) (ty : Ty) :
    (s.emitResult head ty).1 = (t.emitResult head ty).1 ∧
      Twins o p (s.emitResult head ty).2 (t.emitResult head ty).2 := by
  have hvalue : s.freshTemp.1 = t.freshTemp.1 := congrArg ValueId.numbered h.counter
  have hfresh : Twins o p s.freshTemp.2 t.freshTemp.2 := h.number
  simp only [State.emitResult, hvalue]
  exact ⟨trivial, hfresh.emit _⟩

private theorem promoteToMemory (h : Twins o p s t) {block : Nat} {value : ValueId}
    (hs : s.home name = .pending block value) :
    Twins o p (s.promoteToMemory name) (t.promoteToMemory name) := by
  have ht : t.home name = .pending block value := by rw [← h.home, hs]
  rw [State.promoteToMemory_of_pending s name hs, State.promoteToMemory_of_pending t name ht,
    h.typeOf name]
  refine ((h.updateScope _ ?_).record _ _).emitInto (h.pending hs) _
  intro a b v hp
  rw [Scope.home_promote] at hp
  split at hp
  · exact Home.noConfusion hp
  · exact h.pending hp

private theorem markMemory (h : Twins o p s t) (name : String) :
    Twins o p (s.markMemory name) (t.markMemory name) := by
  have hmarked : Twins o p (s.updateScope (·.addMemory name)) (t.updateScope (·.addMemory name)) := by
    refine h.updateScope _ ?_
    intro a b v hp
    rw [Scope.home_addMemory] at hp
    split at hp
    · exact Home.noConfusion hp
    · exact h.pending hp
  rw [State.markMemory, State.markMemory, h.scope]
  split
  · exact hmarked
  · exact hmarked.record _ _

private theorem writeThrough (h : Twins o p s t) (name : String) :
    Twins o p (s.writeThrough name) (t.writeThrough name) := by
  have hhome := h.home name
  cases hs : s.home name with
  | undefined =>
    rw [hs] at hhome
    rw [State.writeThrough_of_undefined s name hs, State.writeThrough_of_undefined t name hhome.symm]
    exact h.markMemory name
  | pending block value =>
    rw [hs] at hhome
    rw [State.writeThrough_of_pending s name hs, State.writeThrough_of_pending t name hhome.symm]
    exact h.promoteToMemory hs
  | memory =>
    rw [hs] at hhome
    rw [State.writeThrough_of_memory s name hs, State.writeThrough_of_memory t name hhome.symm]
    exact h

private theorem declareIfAny (h : Twins o p s t) (name : String) (declared : Option Ty) :
    Twins o p (s.declareIfAny name declared) (t.declareIfAny name declared) := by
  cases declared with
  | none => exact h
  | some ty => exact h.declare name ty

private theorem definitionTy (h : Twins o p s t) (name : String) (valueTy : Ty) (declared : Option Ty) :
    (s.definitionTy name valueTy declared).1 = (t.definitionTy name valueTy declared).1 ∧
      Twins o p (s.definitionTy name valueTy declared).2 (t.definitionTy name valueTy declared).2 := by
  cases declared with
  | some ty => exact ⟨rfl, h.declare name ty⟩
  | none =>
    have hdeclared := h.declared name
    cases hs : s.declared? name with
    | some ty =>
      simp only [State.definitionTy, ← hdeclared, hs]
      exact ⟨trivial, h⟩
    | none =>
      simp only [State.definitionTy, ← hdeclared, hs]
      split
      · exact ⟨trivial, h⟩
      · exact ⟨trivial, h.declare name valueTy⟩

private theorem assign (h : Twins o p s t) (name : String) (x : Operand) (declared : Option Ty) :
    (s.assign name x declared).1 = (t.assign name x declared).1 ∧
      Twins o p (s.assign name x declared).2 (t.assign name x declared).2 := by
  have hhome := h.home name
  cases hs : s.home name with
  | undefined =>
    obtain ⟨hty, htyped⟩ := h.definitionTy name x.2 declared
    obtain ⟨hvalue, hfresh⟩ := htyped.freshDefinition name
    obtain ⟨hcurrent, hinside⟩ := hfresh.current
    simp only [State.assign, ← hhome, hs, hty, hvalue, State.define, ← hcurrent]
    exact ⟨trivial, hfresh.defineIn name _ hinside⟩
  | pending block value =>
    simp only [State.assign, ← hhome, hs]
    exact ⟨trivial, (h.promoteToMemory hs).declareIfAny name declared⟩
  | memory =>
    simp only [State.assign, ← hhome, hs]
    exact ⟨trivial, h.declareIfAny name declared⟩

private theorem enter (h : Twins o p s t) :
    Twins { o with nesting := s.current :: o.nesting } { p with nesting := s.current :: p.nesting }
      s.enter t.enter := by
  obtain ⟨hcurrent, -⟩ := h.current
  obtain ⟨block, hs, ht, -⟩ := h.nesting
  obtain ⟨new, hs', ht'⟩ := h.blocks
  have hlength := h.length
  refine ⟨⟨h.declared, h.taken, h.counter⟩, h.base, h.scopes, h.sites, ⟨s.blocks.length, ?_, ?_, ?_⟩,
    new ++ [[]], ?_, ?_⟩
  · simp [State.enter, State.record, State.current, hs]
  · simp [State.enter, State.record, State.current, hs, ht, hlength]
  · simp [hs']
  · simp [State.enter, State.record, Blocks.extend, hs']
  · simp [State.enter, State.record, Blocks.extend, ht']

private theorem pushClass (h : Twins o p s t) :
    Twins { o with sites := s.site :: o.sites } { p with sites := s.site :: p.sites }
      s.pushClass t.pushClass := by
  obtain ⟨site, hs, ht⟩ := h.sites
  refine ⟨⟨h.declared, h.taken, h.counter⟩, h.base, h.scopes, ⟨.classBody, ?_, ?_⟩, h.nesting, h.blocks⟩
  · simp [State.pushClass, State.site, hs]
  · simp [State.pushClass, State.site, hs, ht]

private theorem popClass {site : Site}
    (h : Twins { o with sites := site :: o.sites } { p with sites := site :: p.sites } s t) :
    Twins o p s.popClass t.popClass := by
  obtain ⟨inner, hs, ht⟩ := h.sites
  refine ⟨⟨h.declared, h.taken, h.counter⟩, h.base, h.scopes, ⟨site, ?_, ?_⟩, h.nesting, h.blocks⟩
  · simp [State.popClass, hs]
  · simp [State.popClass, ht]

private theorem surround {s₁ t₁ : State} (inner : Twins { o with nesting := s.current :: o.nesting }
      { p with nesting := s.current :: p.nesting } s₁ t₁) (h : Twins o p s t) (e e' : Event) :
    Twins o p (({ s₁ with nesting := s.current :: o.nesting }).record e)
      (({ t₁ with nesting := s.current :: p.nesting }).record e') :=
  ⟨⟨inner.declared, inner.taken, inner.counter⟩, inner.base, inner.scopes, inner.sites,
    ⟨s.current, rfl, rfl, h.current.2⟩, inner.blocks⟩

private theorem leave (h : Twins o p s t) (block : Nat) :
    (∃ e e', Lower.leave block s = .ok () (({ s with nesting := o.nesting }).record e) ∧
      Lower.leave block t = .ok () (({ t with nesting := p.nesting }).record e')) ∨
      Lower.leave block s = .error (.misnested block) s ∧
        Lower.leave block t = .error (.misnested block) t := by
  obtain ⟨top, hs, ht, -⟩ := h.nesting
  rw [Lower.leave_eq, Lower.leave_eq, State.leave?, State.leave?, hs, ht]
  by_cases htop : top = block
  · left
    simp only [if_pos htop]
    exact ⟨_, _, rfl, rfl⟩
  · right
    simp only [if_neg htop]
    exact ⟨trivial, trivial⟩

end Twins

namespace Lower

variable {α β : Type} {o p : State}

/-- The outcomes of a step inside of a function, in two states: the same result in states that still
agree, or the same error. -/
inductive Alongside (o p : State) :
    EStateM.Result LowerError State α → EStateM.Result LowerError State α → Prop
  | ok {a : α} {s t : State} (twins : Twins o p s t) : Alongside o p (.ok a s) (.ok a t)
  | error {e : LowerError} {s t : State} (first : Untouched o s) (second : Untouched p t) :
    Alongside o p (.error e s) (.error e t)

def Parallel (o p : State) (x : Lower α) : Prop := ∀ s t, Twins o p s t → Alongside o p (x s) (x t)

namespace Parallel

theorem pure (a : α) : Parallel o p (pure a : Lower α) := fun _ _ h => .ok h

private theorem refuse (construct : Construct) (span : Option Span) :
    Parallel o p (refuse construct span : Lower α) := fun _ _ h => .error h.untouched.1 h.untouched.2

private theorem step {f : State → α × State}
    (hf : ∀ s t, Twins o p s t → (f s).1 = (f t).1 ∧ Twins o p (f s).2 (f t).2) :
    Parallel o p (step f) := by
  intro s t h
  obtain ⟨hvalue, htwins⟩ := hf s t h
  have hs : Lower.step f s = .ok (f s).1 (f s).2 := rfl
  have ht : Lower.step f t = .ok (f t).1 (f t).2 := rfl
  rw [hs, ht, hvalue]
  exact .ok htwins

private theorem modify {f : State → State} (hf : ∀ s t, Twins o p s t → Twins o p (f s) (f t)) :
    Parallel o p (modify f : Lower PUnit) := fun s t h => .ok (hf s t h)

theorem bind {x : Lower α} {f : α → Lower β} (hx : Parallel o p x) (hf : ∀ a, Parallel o p (f a)) :
    Parallel o p (x >>= f) := by
  intro s t h
  have hfirst := hx s t h
  show Alongside o p (EStateM.bind x f s) (EStateM.bind x f t)
  rw [EStateM.bind, EStateM.bind]
  generalize x s = r, x t = r' at hfirst
  cases hfirst with
  | ok twins => exact hf _ _ _ twins
  | error first second => exact .error first second

private theorem guard {c : Prop} [Decidable c] {construct : Construct} {span : Option Span}
    {f : Unit → Lower α} (hf : Parallel o p (f ())) :
    Parallel o p (if c then Lower.refuse construct span >>= f else f ()) := by
  split
  · exact bind (refuse construct span) fun _ => hf
  · exact hf

private theorem get {g : State → β} {f : β → Lower α} (hg : ∀ s t, Twins o p s t → g s = g t)
    (hf : ∀ b, Parallel o p (f b)) : Parallel o p (do f (g (← get))) := by
  intro s t h
  show Alongside o p (f (g s) s) (f (g t) t)
  rw [hg s t h]
  exact hf _ s t h

/-- A step in a new block: what is around the block is the same in both states once it has been left. -/
theorem inBlock_outcomes {s t : State} {f : Nat → Lower α} (hf : Parallel o p (f s.blocks.length))
    (length : s.blocks.length = t.blocks.length) (start : Twins o p s.enter t.enter) :
    (∃ a s' t' e e', Twins o p s' t' ∧
      inBlock f s = .ok (s.blocks.length, a) (({ s' with nesting := o.nesting }).record e) ∧
      inBlock f t = .ok (s.blocks.length, a) (({ t' with nesting := p.nesting }).record e')) ∨
    ∃ e s' t', Untouched o s' ∧ Untouched p t' ∧ inBlock f s = .error e s' ∧ inBlock f t = .error e t' := by
  have hinner := hf _ _ start
  have hs : inBlock f s = EStateM.bind (f s.blocks.length)
    (fun a => leave s.blocks.length >>= fun _ => Pure.pure (s.blocks.length, a)) s.enter := rfl
  have ht : inBlock f t = EStateM.bind (f t.blocks.length)
    (fun a => leave t.blocks.length >>= fun _ => Pure.pure (t.blocks.length, a)) t.enter := rfl
  rw [← length, EStateM.bind] at ht
  rw [EStateM.bind] at hs
  generalize f s.blocks.length s.enter = r, f s.blocks.length t.enter = r' at hinner hs ht
  cases hinner with
  | @error e s' t' first second => exact .inr ⟨e, s', t', first, second, hs, ht⟩
  | @ok a s' t' twins =>
    simp only [Bind.bind, EStateM.bind] at hs ht
    rcases twins.leave s.blocks.length with ⟨e, e', hs', ht'⟩ | ⟨hs', ht'⟩
    · rw [hs'] at hs
      rw [ht'] at ht
      exact .inl ⟨a, s', t', e, e', twins, hs, ht⟩
    · rw [hs'] at hs
      rw [ht'] at ht
      exact .inr ⟨_, s', t', twins.untouched.1, twins.untouched.2, hs, ht⟩

private theorem inBlock {f : Nat → Lower α} (hf : ∀ o p block, Parallel o p (f block)) :
    Parallel o p (inBlock f) := by
  intro s t h
  rcases inBlock_outcomes (hf _ _ _) h.length h.enter with
    ⟨a, s', t', e, e', twins, hs, ht⟩ | ⟨e, s', t', first, second, hs, ht⟩
  · rw [hs, ht]
    exact .ok (twins.surround h e e')
  · rw [hs, ht]
    exact .error ⟨first.scopes, first.blocks⟩ ⟨second.scopes, second.blocks⟩

private theorem read (name : String) : Parallel o p (read name) := step fun _ _ h => h.read name

private theorem emitResult (head : Head) (ty : Ty) : Parallel o p (emitResult head ty) :=
  step fun _ _ h => h.emitResult head ty

private theorem ofExcept (r : Except Refusal α) : Parallel o p (ofExcept r) := by
  cases r with
  | ok a => exact pure a
  | error r => exact refuse r.construct r.span

private theorem comparePairs : (ops : List CmpOperator) → (xs : List Operand) →
    Parallel o p (comparePairs ops xs)
  | _ :: ops, _ :: right :: more =>
    bind (emitResult _ _) fun result => bind (comparePairs ops (right :: more)) fun results =>
      pure (result :: results)
  | [], _ => pure []
  | _ :: _, [] => pure []
  | _ :: _, [_] => pure []

private theorem conjoin (first : Operand) (rest : List Operand) : Parallel o p (conjoin first rest) := by
  induction rest generalizing first with
  | nil => exact pure first
  | cons next rest ih => exact bind (emitResult _ _) ih

mutual

theorem operand : (e : Expr) → Parallel o p (operand e)
  | .mk (.name id) _ => read id
  | .mk (.constant _ _) _ => emitResult _ _
  | .mk (.binOp left _ right) _ =>
    bind (operand left) fun _ => bind (operand right) fun _ => emitResult _ _
  | .mk (.unaryOp _ e) _ => bind (operand e) fun _ => emitResult _ _
  | .mk (.boolOp _ []) _ => refuse _ _
  | .mk (.boolOp _ [_]) _ => refuse _ _
  | .mk (.boolOp op (first :: second :: rest)) _ =>
    bind (operand first) fun _ => bind (operand second) fun _ => bind (emitResult _ _) fun ab =>
      joinAll op rest ab
  | .mk (.compare left ops comparators) span => by
    rw [Lower.operand]
    split
    · exact refuse _ _
    · refine bind (operand left) fun first => bind (operands comparators) fun rest => ?_
      refine bind (comparePairs ops (first :: rest)) fun results => ?_
      cases results with
      | nil => exact refuse _ _
      | cons result more => exact conjoin result more
  | .mk (.call func args keywords) _ => by
    rw [Lower.operand]
    refine bind (arguments args) fun values => bind ?_ fun head => ?_
    · split
      · exact pure _
      · exact bind (ofExcept _) fun attrs => pure _
    · refine get (g := callTy func) ?_ fun ty => emitResult head ty
      intro s t h
      cases hname : func.dotted? with
      | none => simp [callTy, hname]
      | some name => simp [callTy, hname, h.declared name]
  | .mk (.attr _ _) _ => refuse _ _
  | .mk (.subscript _ _) _ => refuse _ _
  | .mk (.starred _) _ => refuse _ _
  | .mk (.list _) _ => refuse _ _
  | .mk (.tuple _) _ => refuse _ _
  | .mk (.index _) _ => refuse _ _
  | .mk (.bare _) _ => refuse _ _

theorem joinAll (op : BoolOperator) : (es : List Expr) → (joined : Operand) →
    Parallel o p (joinAll op joined es)
  | [], joined => pure joined
  | e :: rest, _ => bind (operand e) fun _ => bind (emitResult _ _) fun next => joinAll op rest next

theorem operands : (es : List Expr) → Parallel o p (operands es)
  | [] => pure []
  | e :: rest => bind (operand e) fun x => bind (operands rest) fun xs => pure (x :: xs)

theorem arguments : (es : List Expr) → Parallel o p (arguments es)
  | [] => pure []
  | e :: rest => by
    rw [Lower.arguments]
    exact guard (bind (operand e) fun x => bind (arguments rest) fun xs => pure (x :: xs))

end

private theorem targetName (target : Expr) (span : Option Span) (refusal : String → Construct) :
    Parallel o p (targetName target span refusal) := by
  unfold Lower.targetName
  cases target.name? with
  | none => exact refuse _ _
  | some name => exact pure name

private theorem singleTarget (targets : List Expr) (span : Option Span) :
    Parallel o p (singleTarget targets span) := by
  obtain _ | ⟨target, _ | ⟨_, _⟩⟩ := targets
  · exact refuse _ _
  · exact targetName target span .assignTarget
  · exact refuse _ _

private theorem assignment (name : String) (value : Expr) (declared : Option Ty) :
    Parallel o p (assignment name value declared) :=
  bind (operand value) fun x => bind (step fun _ _ h => h.assign name x declared) fun _ => pure _

private theorem fieldValue (head : Head) (value : Option Expr) : Parallel o p (match value with
    | some e => do return .ofHead (head.withArgs [← Lower.operand e])
    | none => return .ofHead head : Lower Staged) := by
  cases value with
  | none => exact pure _
  | some e => exact bind (operand e) fun _ => pure _

private theorem fieldDeclaration (target annot : Expr) (value : Option Expr) (simple : UInt8) :
    Parallel o p (fieldDeclaration target annot value simple) := by
  unfold Lower.fieldDeclaration
  cases target.name? with
  | none => exact fieldValue _ value
  | some name => exact bind (modify fun _ _ h => h.declare name _) fun _ => fieldValue _ value

private theorem annotated (target annot : Expr) (value : Option Expr) (simple : UInt8)
    (span : Option Span) :
    Parallel o p (annotated target annot value simple span) := by
  unfold Lower.annotated
  refine get (g := State.inFunction) (f := fun inFunction => if inFunction then _ else _)
    (fun _ _ h => h.inFunction) fun inFunction => ?_
  split
  · refine bind (targetName target span .annTarget) fun name => ?_
    cases value with
    | none => exact fieldDeclaration target annot none simple
    | some e => exact assignment name e _
  · exact fieldDeclaration target annot value simple

private theorem exprRegion (e : Expr) : Parallel o p (exprRegion e) := by
  refine bind (inBlock fun o p block => ?_) fun slot => pure _
  exact bind (operand e) fun x => modify fun _ _ h => h.emit _

private theorem region {x : Lower Unit} (hx : ∀ o p, Parallel o p x) : Parallel o p (region x) :=
  bind (inBlock fun o p _ => hx o p) fun _ => pure _

private theorem classDefinition (name : String) (bases : List Expr) (keywords : List Keyword)
    (decorators : List Expr) {x : Lower Unit} (hx : ∀ o p, Parallel o p x) :
    Parallel o p (classDefinition name bases keywords decorators x) := by
  intro s t h
  have hinner := region hx _ _ h.pushClass
  show Alongside o p (EStateM.bind (Lower.region x) _ s.pushClass)
    (EStateM.bind (Lower.region x) _ t.pushClass)
  rw [EStateM.bind, EStateM.bind]
  generalize Lower.region x s.pushClass = r, Lower.region x t.pushClass = r' at hinner
  cases hinner with
  | ok twins => exact .ok twins.popClass
  | error first second => exact .error ⟨first.scopes, first.blocks⟩ ⟨second.scopes, second.blocks⟩

private theorem bindParams {entry : Nat} (inside : o.blocks.length ≤ entry) (params : List Param) :
    Parallel o p (bindParams entry params) := by
  induction params with
  | nil => exact pure []
  | cons q rest ih =>
    exact bind (step fun _ _ h => h.bind q.name _ inside) fun value => bind ih fun more => pure _

end Parallel

/-- The outcomes of a step in two states that need not agree in what is around it: the same result with
the same new blocks, or the same error. Both states keep what they had. -/
inductive Isolated (s t : State) :
    EStateM.Result LowerError State α → EStateM.Result LowerError State α → Prop
  | ok {a : α} {new : Blocks} {s' t' : State} (concurs : Concurs s' t') (first : Adds s new s')
      (second : Adds t new t') : Isolated s t (.ok a s') (.ok a t')
  | error {e : LowerError} {s' t' : State} (first : Untouched s s') (second : Untouched t t') :
      Isolated s t (.error e s') (.error e t')

private theorem Isolated.alongside {s t : State} {r r' : EStateM.Result LowerError State α}
    (h : Isolated s t r r') (twins : Twins o p s t) : Alongside o p r r' := by
  cases h with
  | error first second =>
    exact .error (twins.untouched.1.trans first) (twins.untouched.2.trans second)
  | @ok a new s' t' concurs first second =>
    obtain ⟨old, hs, ht⟩ := twins.blocks
    refine .ok ⟨concurs.toNaming, twins.base, ?_, ?_, ?_, old ++ new, ?_, ?_⟩
    · rw [first.scopes, second.scopes]
      exact twins.scopes
    · rw [first.sites, second.sites]
      exact twins.sites
    · rw [first.nesting, second.nesting]
      exact twins.nesting
    · rw [first.blocks, hs, List.append_assoc]
    · rw [second.blocks, ht, List.append_assoc]

/-- The start of a function: it has an empty scope and an empty block. -/
theorem twins_of_concurs {s t : State} (h : Concurs s t) (name : String) (ty : Ty) :
    Twins s t (s.declare name ty).pushFunction.enter (t.declare name ty).pushFunction.enter := by
  obtain ⟨hdeclared, htaken, hcounter⟩ := h.toNaming.declare name ty
  refine ⟨⟨hdeclared, htaken, hcounter⟩, h.length, ⟨{}, rfl, rfl, ?_⟩, ⟨.function, rfl, rfl⟩,
    ⟨s.blocks.length, rfl, ?_, le_rfl⟩, [[]], rfl, rfl⟩
  · intro a b v hp
    exact Home.noConfusion hp
  · rw [h.length]
    rfl

private theorem function_isolated (name : String) (params : Params) (decorators : List Expr)
    (returns : Option Expr) (span : Option Span) {x : Lower Unit} (hx : ∀ o p, Parallel o p x)
    {s t : State} (h : Concurs s t) :
    Isolated s t (function name params decorators returns span x s)
      (function name params decorators returns span x t) := by
  unfold function
  cases params.refused? with
  | some construct => exact .error (.refl s) (.refl t)
  | none =>
    let inner (entry : Nat) : Lower (List (ValueId × Ty)) := do
      let formals ← bindParams entry params.plain
      x
      return formals
    have hinner : Parallel s t (inner s.blocks.length) :=
      .bind (.bindParams le_rfl _) fun formals => .bind (hx s t) fun _ => .pure formals
    have hstart := twins_of_concurs h name (annotatedTy? returns)
    show Isolated s t (EStateM.bind (inBlock inner) _ (s.declare name _).pushFunction)
      (EStateM.bind (inBlock inner) _ (t.declare name _).pushFunction)
    rw [EStateM.bind, EStateM.bind]
    rcases Parallel.inBlock_outcomes (s := (s.declare name (annotatedTy? returns)).pushFunction)
      (t := (t.declare name (annotatedTy? returns)).pushFunction) hinner h.length hstart with
      ⟨formals, s', t', e, e', twins, hs, ht⟩ | ⟨e, s', t', first, second, hs, ht⟩
    · obtain ⟨new, hnew, hnew'⟩ := twins.blocks
      obtain ⟨scope, hscopes, hscopes', -⟩ := twins.scopes
      obtain ⟨site, hsites, hsites'⟩ := twins.sites
      rw [hs, ht]
      refine .ok ⟨⟨twins.declared, twins.taken, twins.counter⟩, twins.length⟩ ⟨?_, ?_, rfl, hnew⟩
        ⟨?_, ?_, rfl, hnew'⟩
      · exact congrArg List.tail hscopes
      · exact congrArg List.tail hsites
      · exact congrArg List.tail hscopes'
      · exact congrArg List.tail hsites'
    · rw [hs, ht]
      exact .error first second

mutual

theorem parallel_statement : (st : Stmt) → {o p : State} → Parallel o p (statement st)
  | .mk (.functionDef name params stmts decorators returns) span, o, p => by
    intro s t twins
    exact (function_isolated name params decorators returns span (fun o p => parallel_body stmts)
      twins.concurs).alongside twins
  | .mk (.classDef name bases keywords stmts decorators) _, _, _ =>
    .classDefinition name bases keywords decorators fun _ _ => parallel_body stmts
  | .mk (.ret none) _, _, _ => .pure _
  | .mk (.ret (some e)) _, _, _ => .bind (.operand e) fun _ => .pure _
  | .mk (.assign targets value) span, _, _ =>
    .bind (.singleTarget targets span) fun name => .assignment name value none
  | .mk (.augAssign target op value) span, _, _ =>
    .bind (.targetName target span .augTarget) fun name => .bind (.operand value) fun _ =>
      .bind (.modify fun _ _ h => h.writeThrough name) fun _ => .pure _
  | .mk (.annAssign target annot value simple) span, _, _ => .annotated target annot value simple span
  | .mk (.forIn target iter stmts _) span, _, _ => by
    rw [statement]
    refine .guard (.bind (.targetName target span .forTarget) fun name => ?_)
    refine .bind (.exprRegion iter) fun _ => .bind (.modify fun _ _ h => h.writeThrough name) fun _ => ?_
    exact .bind (.region fun _ _ => parallel_body stmts) fun _ => .pure _
  | .mk (.whileDo test stmts _) _, _, _ => by
    rw [statement]
    refine .guard (.bind (.exprRegion test) fun _ => ?_)
    exact .bind (.region fun _ _ => parallel_body stmts) fun _ => .pure _
  | .mk (.ifElse test yes no) span, _, _ => by
    rw [statement]
    refine .bind (.operand test) fun x => .bind (.region fun _ _ => parallel_body yes) fun slot => ?_
    split
    · exact .pure _
    · exact .bind (.region fun _ _ => parallel_body no) fun _ => .pure _
  | .mk (.expr value) _, _, _ => .bind (.operand value) fun _ => .pure _
  | .mk .pass _, _, _ => .pure _
  | .mk .breakLoop _, _, _ => .pure _
  | .mk .continueLoop _, _, _ => .pure _
  | .mk (.bare _) _, _, _ => .refuse _ _

theorem parallel_body : (stmts : List Stmt) → {o p : State} → Parallel o p (body stmts)
  | [], _, _ => .pure ()
  | st :: rest, _, _ => .bind (parallel_statement st) fun op =>
    .bind (.modify fun _ _ h => h.emit op) fun _ => parallel_body rest

end

end Lower

/-- Function scopes are isolated in both directions. In two states that agree in types, names and number
of blocks, a function definition gives the same operator with the same new blocks, or the same error; and
in each run all scopes and blocks that were there before are as they were. -/
theorem functionDef_isolated {s t : State} (agree : Concurs s t) (name : String) (params : Params)
    (body : List Stmt) (decorators : List Expr) (returns : Option Expr) (span : Option Span) :
    Lower.Isolated s t (Lower.statement (.mk (.functionDef name params body decorators returns) span) s)
      (Lower.statement (.mk (.functionDef name params body decorators returns) span) t) :=
  Lower.function_isolated name params decorators returns span (fun _ _ => Lower.parallel_body body) agree

/-- A function that assigns again to a variable of its own, also in a function inside of it. -/
def summingFunction : Stmt :=
  .function "sum" [⟨"items", none⟩] none
    [.assign "total" (.ofInt 0),
      .forIn "item" (.ofName "items") [.assign "total" (.binOp (.ofName "total") .add (.ofName "item"))],
      .function "scaled" [⟨"items", none⟩] none
        [.assign "total" (.ofName "items"), .assign "total" (.binOp (.ofName "total") .mult (.ofInt 2))],
      .ret (some (.ofName "total"))]

def emptyModule : State :=
  { blocks := [[]], nesting := [0], types := [("total", .named "int"), ("items", .named "str")],
    taken := [.named "total", .named "item"], counter := 7 }

/-- The same names are variables here, in memory and held in the block that there is. -/
def busyMethod : State :=
  { blocks := [[.ofHead (Head.py "pass")]],
    scopes := [⟨[("items", (0, .named "items"))], ["total"]⟩, ⟨[], ["sum", "item"]⟩],
    sites := [.function, .classBody, .module],
    types := [("items", .named "str"), ("total", .named "int"), ("items", .unknown)],
    taken := [.named "item", .named "total", .named "item"], counter := 7 }

theorem summingFunction_isolated : Concurs emptyModule busyMethod ∧
    (∃ op s, Lower.statement summingFunction emptyModule = .ok op s) ∧
      Lower.Isolated emptyModule busyMethod (Lower.statement summingFunction emptyModule)
        (Lower.statement summingFunction busyMethod) := by
  have agree : Concurs emptyModule busyMethod := by
    refine ⟨⟨?_, ?_, rfl⟩, rfl⟩
    · intro name
      by_cases htotal : name = "total"
      · subst htotal
        rfl
      · by_cases hitems : name = "items"
        · subst hitems
          rfl
        · have htotal' : (name == "total") = false := by simpa using htotal
          have hitems' : (name == "items") = false := by simpa using hitems
          simp [State.declared?, NameMap.find?, emptyModule, busyMethod, List.lookup, htotal', hitems']
    · intro id
      simp only [emptyModule, busyMethod, List.mem_cons, List.not_mem_nil]
      tauto
  refine ⟨agree, ?_, functionDef_isolated agree "sum" _ _ _ _ none⟩
  have hruns : ((Lower.statement summingFunction).run' emptyModule).isSome = true := by decide +kernel
  cases hrun : Lower.statement summingFunction emptyModule with
  | ok op s => exact ⟨op, s, rfl⟩
  | error e s => simp [EStateM.run', EStateM.run, hrun] at hruns

end RegionIR
