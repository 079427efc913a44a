import RegionIR.Proofs.Derivation
/-!
# Variables and blocks under single steps

What each step of lowering does to the home of a variable and to the contents of a block. Homes are
changed by three updates of a scope only, and blocks only by appending.
-/
namespace RegionIR

namespace NameMap

variable {α : Type} (m : NameMap α) (name other : String) (a : α)

theorem find?_erase_of_ne (h : other ≠ name) : (m.erase name).find? other = m.find? other := by
  induction m with
  | nil => rfl
  | cons p m ih =>
    obtain ⟨k, b⟩ := p
    by_cases hk : k = name
    · have hne : (other == name) = false := by simpa using h
      simpa [erase, find?, hk, List.lookup_cons, hne] using ih
    · by_cases ho : other = k
      · simp [erase, find?, hk, ho]
      · have hne : (other == k) = false := by simpa using ho
        simpa [erase, find?, hk, List.lookup_cons, hne] using ih

@[simp] theorem find?_insert_self : (m.insert name a).find? name = some a := by
  simp [insert, find?]

theorem find?_insert_of_ne (h : other ≠ name) : (m.insert name a).find? other = m.find? other := by
  have hne : (other == name) = false := by simpa using h
  simpa [insert, find?, List.lookup_cons, hne] using find?_erase_of_ne m name other h

end NameMap

namespace Scope

variable (sc : Scope) (name x : String) (block : Nat) (value : ValueId)

theorem home_eq_memory : sc.home x = .memory ↔ x ∈ sc.memory := by
  unfold home
  split
  · simp_all
  · split <;> simp_all

theorem home_define :
    (sc.define name block value).home x = if x = name then .pending block value else sc.home x := by
  by_cases h : x = name
  · subst h
    simp [home, define]
  · simp [home, define, h, NameMap.find?_insert_of_ne _ _ _ _ h]

theorem home_addMemory : (sc.addMemory name).home x = if x = name then .memory else sc.home x := by
  by_cases h : x = name
  · subst h
    simp only [home, addMemory, if_true]
    split <;> simp_all
  · have hmem : x ∈ (sc.addMemory name).memory ↔ x ∈ sc.memory := by
      simp only [addMemory]
      split <;> simp [h]
    simp only [home, hmem, h, if_false]
    rfl

theorem home_promote : (sc.promote name).home x = if x = name then .memory else sc.home x := by
  by_cases h : x = name
  · have hmem : x ∈ (sc.promote name).memory := by
      subst h
      simp only [promote, addMemory]
      split <;> simp_all
    rw [(home_eq_memory _ _).mpr hmem, if_pos h]
  · have hmem : x ∈ (sc.addMemory name).memory ↔ x ∈ sc.memory := by
      simp only [addMemory]
      split <;> simp [h]
    simp only [home, hmem, h, if_false, promote, NameMap.find?_erase_of_ne _ _ _ h]

theorem find?_of_home_pending (h : sc.home x = .pending block value) :
    sc.pending.find? x = some (block, value) := by
  unfold home at h
  split at h
  · simp at h
  · split at h <;> simp_all

end Scope

namespace Blocks

variable (bs : Blocks) (b c : Nat) (op : Staged)

@[simp] theorem length_emit : (bs.emit b op).length = bs.length := by simp [emit]

@[simp] theorem length_extend : bs.extend.length = bs.length + 1 := by simp [extend]

theorem contents_emit_self (h : b < bs.length) :
    (bs.emit b op).contents b = bs.contents b ++ [op] := by
  simp [contents, emit, List.getElem?_eq_getElem h]

theorem contents_emit_of_ne (h : c ≠ b) : (bs.emit b op).contents c = bs.contents c := by
  simp [contents, emit, Ne.symm h]

theorem contents_of_length_le (h : bs.length ≤ b) : bs.contents b = [] := by
  simp [contents, List.getElem?_eq_none h]

@[simp] theorem contents_extend : bs.extend.contents b = bs.contents b := by
  by_cases h : b < bs.length
  · simp [contents, extend, List.getElem?_append_left h]
  · by_cases he : b = bs.length
    · subst he
      simp [contents, extend]
    · rw [contents_of_length_le bs.extend b (by simp; omega), contents_of_length_le bs b (by omega)]

end Blocks

def storeHead (name : String) (value : ValueId) (ty : Ty) : Head :=
  ((Head.py "store").withAttr "name" (.text name)).withArg value ty

namespace State

variable (s : State) (name x : String)

theorem home_congr {t : State} (h : t.scopes = s.scopes) : t.home x = s.home x := by
  simp only [home, scope, h]

theorem inFunction_congr {t : State} (h : t.sites = s.sites) : t.inFunction = s.inFunction := by
  rw [inFunction, inFunction, site, site, h]

/-- Moving a pending variable to memory stores its value at the end of the block that holds it. -/
theorem promoteToMemory_of_pending {block : Nat} {value : ValueId}
    (h : s.home name = .pending block value) :
    s.promoteToMemory name = ((s.updateScope (·.promote name)).record
      (.promoting name value block)).emitInto block
        (.ofHead (storeHead name value (s.typeOf name))) := by
  have hfind := Scope.find?_of_home_pending _ _ _ _ h
  simp only [promoteToMemory, promote, hfind]
  rfl

theorem writeThrough_of_pending {block : Nat} {value : ValueId}
    (h : s.home name = .pending block value) : s.writeThrough name = s.promoteToMemory name := by
  simp [writeThrough, h]

theorem writeThrough_of_undefined (h : s.home name = .undefined) :
    s.writeThrough name = s.markMemory name := by
  simp [writeThrough, h]

theorem writeThrough_of_memory (h : s.home name = .memory) : s.writeThrough name = s := by
  simp [writeThrough, h]

end State

/-- Leaving a block changes nothing but the nesting. -/
structure Left (s : State) (block : Nat) (s' : State) : Prop where
  nesting : s.nesting = block :: s'.nesting
  scopes : s'.scopes = s.scopes
  sites : s'.sites = s.sites
  blocks : s'.blocks = s.blocks
  taken : s'.taken = s.taken
  counter : s'.counter = s.counter

theorem State.left_of_leave? {s s' : State} {block : Nat} (h : s.leave? block = some s') :
    Left s block s' := by
  unfold leave? at h
  cases hn : s.nesting with
  | nil => simp [hn] at h
  | cons top rest =>
    simp only [hn] at h
    split at h
    · rename_i htop
      cases h
      exact ⟨by rw [hn, htop]; rfl, rfl, rfl, rfl, rfl, rfl⟩
    · simp at h

theorem Left.home {s s' : State} {block : Nat} (h : Left s block s') (x : String) :
    s'.home x = s.home x :=
  State.home_congr s x h.scopes

/-- The stacks that a step leaves as they are: only the innermost scope may change. -/
structure Frame (s s' : State) : Prop where
  nesting : s'.nesting = s.nesting
  sites : s'.sites = s.sites
  outer : s'.scopes.tail = s.scopes.tail

/-- The id of a definition is new: the plain one if nobody has it yet, else a numbered version. -/
inductive Fresh (s : State) (name : String) : ValueId → State → Prop
  | plain {s' : State} (free : .named name ∉ s.taken) (taken : s'.taken = .named name :: s.taken)
      (counter : s'.counter = s.counter) : Fresh s name (.named name) s'
  | version {s' : State} (used : .named name ∈ s.taken) (taken : s'.taken = s.taken)
      (counter : s'.counter = s.counter + 1) : Fresh s name (.versioned name s.counter) s'

/-- A write to a variable, with the id that it defines if it defines one. -/
inductive Write (s : State) (name : String) : Option ValueId → State → Prop
  /-- The first write defines a value in the current block. -/
  | define {s' : State} {value : ValueId} (frame : Frame s s') (before : s.home name = .undefined)
      (blocks : s'.blocks = s.blocks) (fresh : Fresh s name value s')
      (home : ∀ x, s'.home x = if x = name then .pending s.current value else s.home x) :
      Write s name (some value) s'
  /-- A later one moves the variable to memory, with its value stored where it is defined. -/
  | promote {s' : State} {block : Nat} {value : ValueId} {ty : Ty} (frame : Frame s s')
      (before : s.home name = .pending block value)
      (blocks : s'.blocks = s.blocks.emit block (.ofHead (storeHead name value ty)))
      (taken : s'.taken = s.taken) (counter : s'.counter = s.counter)
      (home : ∀ x, s'.home x = if x = name then .memory else s.home x) : Write s name none s'
  /-- A write that goes to memory anyway. -/
  | mark {s' : State} (frame : Frame s s') (before : s.home name = .undefined)
      (blocks : s'.blocks = s.blocks) (taken : s'.taken = s.taken) (counter : s'.counter = s.counter)
      (home : ∀ x, s'.home x = if x = name then .memory else s.home x) : Write s name none s'
  | stay {s' : State} (frame : Frame s s') (before : s.home name = .memory)
      (blocks : s'.blocks = s.blocks) (taken : s'.taken = s.taken) (counter : s'.counter = s.counter)
      (home : ∀ x, s'.home x = s.home x) : Write s name none s'

/-- States with the same variables, blocks and fresh ids. -/
structure SameVars (s s' : State) : Prop where
  scopes : s'.scopes = s.scopes
  nesting : s'.nesting = s.nesting
  blocks : s'.blocks = s.blocks
  taken : s'.taken = s.taken
  counter : s'.counter = s.counter

/-- States that differ at most in declared types and in the journal. -/
structure Alike (s s' : State) : Prop extends SameVars s s' where
  sites : s'.sites = s.sites

namespace SameVars

variable {s s' : State}

theorem refl (s : State) : SameVars s s := ⟨rfl, rfl, rfl, rfl, rfl⟩

theorem symm (h : SameVars s s') : SameVars s' s :=
  ⟨h.scopes.symm, h.nesting.symm, h.blocks.symm, h.taken.symm, h.counter.symm⟩

theorem home (h : SameVars s s') (x : String) : s'.home x = s.home x := State.home_congr s x h.scopes

theorem current (h : SameVars s s') : s'.current = s.current := by simp only [State.current, h.nesting]

end SameVars

namespace Alike

variable {s s' : State}

theorem refl (s : State) : Alike s s := ⟨.refl s, rfl⟩

theorem frame (h : Alike s s') : Frame s s' := ⟨h.nesting, h.sites, by rw [h.scopes]⟩

theorem declare (name : String) (ty : Ty) : Alike s (s.declare name ty) :=
  ⟨⟨rfl, rfl, rfl, rfl, rfl⟩, rfl⟩

theorem declareIfAny (name : String) (declared : Option Ty) :
    Alike s (s.declareIfAny name declared) := by
  cases declared with
  | none => exact .refl s
  | some ty => exact .declare name ty

theorem definitionTy (name : String) (valueTy : Ty) (declared : Option Ty) :
    Alike s (s.definitionTy name valueTy declared).2 := by
  unfold State.definitionTy
  split
  · exact .declare name _
  · split
    · exact .refl s
    · dsimp only
      split
      · exact .refl s
      · exact .declare name _

theorem declareTarget (target annot : Expr) : Alike s (s.declareTarget target annot) := by
  unfold State.declareTarget
  split
  · exact .declare _ _
  · exact .refl s

end Alike

theorem Frame.trans {s t u : State} (h : Frame s t) (h' : Frame t u) : Frame s u :=
  ⟨h'.nesting.trans h.nesting, h'.sites.trans h.sites, h'.outer.trans h.outer⟩

theorem Frame.current {s t : State} (h : Frame s t) : t.current = s.current := by
  simp only [State.current, h.nesting]

private theorem Fresh.after {s t u : State} {name : String} {value : ValueId} (h : Fresh t name value u)
    (same : Alike s t) : Fresh s name value u := by
  cases h with
  | plain free taken counter =>
    exact .plain (by rwa [← same.taken]) (by rw [taken, same.taken]) (counter.trans same.counter)
  | version used taken counter =>
    rw [same.counter]
    exact .version (by rwa [← same.taken]) (taken.trans same.taken) (by rw [counter, same.counter])

theorem Fresh.before {s t u : State} {name : String} {value : ValueId} (h : Fresh s name value t)
    (same : Alike t u) : Fresh s name value u := by
  cases h with
  | plain free taken counter => exact .plain free (same.taken.trans taken) (same.counter.trans counter)
  | version used taken counter =>
    exact .version used (same.taken.trans taken) (same.counter.trans counter)

private theorem Write.alike {s t t' : State} {name : String} {r : Option ValueId} (h : Write s name r t)
    (same : Alike t t') : Write s name r t' := by
  cases h with
  | define frame before blocks fresh home =>
    exact .define (frame.trans same.frame) before (same.blocks.trans blocks) (fresh.before same)
      fun x => (same.home x).trans (home x)
  | promote frame before blocks taken counter home =>
    exact .promote (frame.trans same.frame) before (same.blocks.trans blocks)
      (same.taken.trans taken) (same.counter.trans counter) fun x => (same.home x).trans (home x)
  | mark frame before blocks taken counter home =>
    exact .mark (frame.trans same.frame) before (same.blocks.trans blocks)
      (same.taken.trans taken) (same.counter.trans counter) fun x => (same.home x).trans (home x)
  | stay frame before blocks taken counter home =>
    exact .stay (frame.trans same.frame) before (same.blocks.trans blocks)
      (same.taken.trans taken) (same.counter.trans counter) fun x => (same.home x).trans (home x)

namespace State

variable (s : State) (name : String)

theorem freshDefinition_define (block : Nat) :
    Fresh s name (s.freshDefinition name).1
      ((s.freshDefinition name).2.defineIn name (s.freshDefinition name).1 block) ∧
    Frame s ((s.freshDefinition name).2.defineIn name (s.freshDefinition name).1 block) ∧
    ((s.freshDefinition name).2.defineIn name (s.freshDefinition name).1 block).blocks = s.blocks ∧
    ∀ x, ((s.freshDefinition name).2.defineIn name (s.freshDefinition name).1 block).home x =
      if x = name then .pending block (s.freshDefinition name).1 else s.home x := by
  by_cases h : ValueId.named name ∈ s.taken
  · simp only [freshDefinition, h, if_true]
    exact ⟨.version h rfl rfl, ⟨rfl, rfl, rfl⟩, rfl, fun x => Scope.home_define _ _ _ _ _⟩
  · simp only [freshDefinition, h, if_false]
    exact ⟨.plain h rfl rfl, ⟨rfl, rfl, rfl⟩, rfl, fun x => Scope.home_define _ _ _ _ _⟩

theorem write_promoteToMemory {block : Nat} {value : ValueId}
    (h : s.home name = .pending block value) : Write s name none (s.promoteToMemory name) := by
  rw [promoteToMemory_of_pending s name h]
  refine .promote ⟨rfl, rfl, rfl⟩ h rfl rfl rfl ?_
  intro x
  exact Scope.home_promote _ _ _

theorem write_writeThrough : Write s name none (s.writeThrough name) := by
  cases h : s.home name with
  | undefined =>
    rw [writeThrough_of_undefined s name h]
    unfold markMemory
    split <;> exact .mark ⟨rfl, rfl, rfl⟩ h rfl rfl rfl fun x => Scope.home_addMemory _ _ _
  | pending block value =>
    rw [writeThrough_of_pending s name h]
    exact write_promoteToMemory s name h
  | memory =>
    rw [writeThrough_of_memory s name h]
    exact .stay ⟨rfl, rfl, rfl⟩ h rfl rfl rfl fun _ => rfl

theorem assign_of_undefined (x : Operand) (declared : Option Ty) (h : s.home name = .undefined) :
    s.assign name x declared =
      (((Head.py (if declared.isSome then "cast" else "assign")).withArgs [x]).withResult
          ((s.definitionTy name x.2 declared).2.freshDefinition name).1
          (s.definitionTy name x.2 declared).1,
        ((s.definitionTy name x.2 declared).2.freshDefinition name).2.defineIn name
          ((s.definitionTy name x.2 declared).2.freshDefinition name).1 s.current) := by
  have same : Alike s (s.definitionTy name x.2 declared).2 := .definitionTy name x.2 declared
  have hcurrent : ((s.definitionTy name x.2 declared).2.freshDefinition name).2.current =
      s.current := by
    rw [← same.current]
    unfold freshDefinition
    dsimp only
    split <;> rfl
  simp only [assign, h, define, hcurrent]

/-- An assignment defines a value if its variable is new, and is a store otherwise. -/
theorem write_assign (x : Operand) (declared : Option Ty) :
    (∃ value ty, s.home name = .undefined ∧
      (s.assign name x declared).1 =
        ((Head.py (if declared.isSome then "cast" else "assign")).withArgs [x]).withResult value ty ∧
      Write s name (some value) (s.assign name x declared).2) ∨
    (s.home name ≠ .undefined ∧ (s.assign name x declared).1 = storeHead name x.1 x.2 ∧
      Write s name none (s.assign name x declared).2) := by
  cases h : s.home name with
  | undefined =>
    left
    have same : Alike s (s.definitionTy name x.2 declared).2 := .definitionTy name x.2 declared
    obtain ⟨fresh, frame, blocks, home⟩ :=
      freshDefinition_define (s.definitionTy name x.2 declared).2 name s.current
    have hassign := assign_of_undefined s name x declared h
    refine ⟨_, (s.definitionTy name x.2 declared).1, rfl, congrArg Prod.fst hassign, ?_⟩
    rw [hassign]
    refine .define (same.frame.trans frame) h (blocks.trans same.blocks) (fresh.after same) ?_
    intro y
    rw [home y, same.home y]
  | pending block value =>
    right
    refine ⟨by simp, by simp only [assign, h]; rfl, ?_⟩
    simp only [assign, h]
    exact (write_promoteToMemory s name h).alike (.declareIfAny name declared)
  | memory =>
    right
    refine ⟨by simp, by simp only [assign, h]; rfl, ?_⟩
    simp only [assign, h]
    have same : Alike s (s.declareIfAny name declared) := .declareIfAny name declared
    exact .stay same.frame h same.blocks same.taken same.counter same.home

end State

end RegionIR
