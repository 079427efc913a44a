import RegionIR.Proofs.Operands
/-!
# The ledger and the state

At every point of a pass the ledger of the source is right about the state: it knows the declared types,
what each variable holds and with which types the ids in use are produced. So it can tell whether a read
or the store that a write puts in agrees with the definition of its operand.
-/
namespace RegionIR

open Lower (Runs)

/-- A row produces the id with the type, as the value of a variable. -/
def Defines (R : List Row) (value : ValueId) (ty : Ty) : Prop :=
  ∃ r ∈ R, (value, ty) ∈ r.makes ∧ value ∈ r.varIds

private theorem Defines.made {R : List Row} {value : ValueId} {ty : Ty} (h : Defines R value ty) :
    (value, ty) ∈ R.flatMap Row.makes := by
  obtain ⟨r, hr, hmade, -⟩ := h
  exact List.mem_flatMap.mpr ⟨r, hr, hmade⟩

theorem Defines.varId {R : List Row} {value : ValueId} {ty : Ty} (h : Defines R value ty) :
    value ∈ R.flatMap Row.varIds := by
  obtain ⟨r, hr, -, hvar⟩ := h
  exact List.mem_flatMap.mpr ⟨r, hr, hvar⟩

/-- A variable holds what the ledger says, and its id is produced with the type noted there. -/
inductive Lives (R : List Row) : Home → Held → Prop
  | nothing : Lives R .undefined .nothing
  | value {block : Nat} {value : ValueId} {ty : Ty} (made : Defines R value ty) :
      Lives R (.pending block value) (.value ty)
  | memory : Lives R .memory .memory

/-- The ledger is right about the state. The rows `R` are those of the whole program. -/
structure Keeps (R : List Row) (s : State) (l : Ledger) : Prop where
  declared : ∀ x, s.declared? x = l.declared x
  held : ∀ x, Lives R (s.home x) (l.held x)
  taken : ∀ x, .named x ∈ s.taken ↔ l.plain x ≠ none
  plain : ∀ x ty, l.plain x = some ty → Defines R (.named x) ty

namespace Keeps

variable {R : List Row} {s t : State} {l : Ledger}

private theorem typeOf (h : Keeps R s l) (x : String) : s.typeOf x = l.tyOf x := by
  rw [State.typeOf, Ledger.tyOf, h.declared]

theorem congr (h : Keeps R s l) (scopes : t.scopes = s.scopes) (types : t.types = s.types)
    (taken : t.taken = s.taken) : Keeps R t l where
  declared x := by rw [State.declared?, types]; exact h.declared x
  held x := by rw [State.home_congr s x scopes]; exact h.held x
  taken x := by rw [taken]; exact h.taken x
  plain := h.plain

theorem declare (h : Keeps R s l) (name : String) (ty : Ty) :
    Keeps R (s.declare name ty) (l.declare name ty) where
  declared x := by
    by_cases hx : x = name
    · subst hx
      simp [State.declare, State.declared?, Ledger.declare]
    · simp only [State.declare, State.declared?, Ledger.declare, if_neg hx,
        NameMap.find?_insert_of_ne _ _ _ _ hx]
      exact h.declared x
  held := h.held
  taken := h.taken
  plain := h.plain

private theorem define (h : Keeps R s l) {name : String} {ty : Ty} (block : Nat)
    (made : Defines R (s.freshDefinition name).1 ty) :
    Keeps R ((s.freshDefinition name).2.defineIn name (s.freshDefinition name).1 block)
      (l.define name ty) := by
  obtain ⟨fresh, -, -, home⟩ := s.freshDefinition_define name block
  have htypes : ((s.freshDefinition name).2.defineIn name (s.freshDefinition name).1 block).types =
      s.types := by
    unfold State.freshDefinition
    dsimp only
    split <;> rfl
  constructor
  · intro x
    rw [State.declared?, htypes]
    exact h.declared x
  · intro x
    rw [home x, Ledger.define]
    dsimp only
    split
    · exact .value made
    · exact h.held x
  · intro x
    by_cases hx : x = name
    · subst hx
      simp only [Ledger.define, if_true, ne_eq, reduceCtorEq, not_false_eq_true, iff_true]
      generalize (s.freshDefinition x).1 = value at fresh
      cases fresh with
      | plain _ taken _ => rw [taken]; exact List.mem_cons_self
      | version used taken _ => rwa [taken]
    · have hne : ValueId.named x ≠ .named name := fun heq => hx (ValueId.named_injective heq)
      simp only [Ledger.define, if_neg hx, ← h.taken x]
      generalize (s.freshDefinition name).1 = value at fresh
      cases fresh with
      | plain _ taken _ => rw [taken, List.mem_cons, or_iff_right hne]
      | version _ taken _ => rw [taken]
  · intro x ty'
    by_cases hx : x = name
    · subst hx
      simp only [Ledger.define, if_true, Option.some.injEq]
      rintro rfl
      cases hplain : l.plain x with
      | some ty' => exact h.plain x ty' hplain
      | none =>
        have hfree : ValueId.named x ∉ s.taken := fun hmem => (h.taken x).mp hmem hplain
        simpa [State.freshDefinition, hfree] using made
    · simp only [Ledger.define, if_neg hx]
      exact h.plain x ty'

theorem move (h : Keeps R s l) {name : String} (types : t.types = s.types)
    (write : Write s name none t) : Keeps R t (l.move name) := by
  obtain ⟨home, taken, -⟩ := write.moves
  constructor
  · intro x
    rw [State.declared?, types]
    exact h.declared x
  · intro x
    rw [home x, Ledger.move]
    dsimp only
    split
    · exact .memory
    · exact h.held x
  · intro x
    rw [taken]
    exact h.taken x
  · exact h.plain

private theorem settle (h : Keeps R s l) (name : String) (valueTy : Ty) (annot : Option Ty) :
    (s.definitionTy name valueTy annot).1 = (l.settle name valueTy annot).1 ∧
      Keeps R (s.definitionTy name valueTy annot).2 (l.settle name valueTy annot).2 := by
  cases annot with
  | some ty => exact ⟨rfl, h.declare name ty⟩
  | none =>
    cases hdeclared : l.declared name with
    | some ty =>
      simp only [State.definitionTy, Ledger.settle, h.declared name, hdeclared, true_and]
      exact h
    | none =>
      simp only [State.definitionTy, Ledger.settle, h.declared name, hdeclared, true_and]
      split
      · exact h
      · exact h.declare name valueTy

theorem enter (h : Keeps R s l) : Keeps R s.pushFunction { l with held := fun _ => .nothing } where
  declared := h.declared
  held _ := .nothing
  taken := h.taken
  plain := h.plain

theorem bindParams {entry : Nat} {params : List Param} {formals : List (ValueId × Ty)}
    (h : Keeps R s l) (run : Runs (Lower.bindParams entry params) s formals t)
    (made : ∀ p ∈ formals, Defines R p.1 p.2) :
    Keeps R t ((params.map fun p => (p.name, annotatedTy? p.annot)).foldl
      (fun l p => (l.define p.1 p.2).declare p.1 p.2) l) := by
  induction params generalizing s l formals with
  | nil =>
    simp only [Lower.bindParams, Lower.runs_pure] at run
    obtain ⟨rfl, rfl⟩ := run
    exact h
  | cons p rest ih =>
    simp only [Lower.bindParams, Lower.runs_bind, Lower.runs_step, Lower.runs_pure] at run
    obtain ⟨value, s₁, hbind, more, s₂, hmore, rfl, rfl⟩ := run
    have hvalue : (s.freshDefinition p.name).1 = value := congrArg Prod.fst hbind
    have hstate : ((s.freshDefinition p.name).2.defineIn p.name (s.freshDefinition p.name).1
        entry).declare p.name (annotatedTy? p.annot) = s₁ := congrArg Prod.snd hbind
    subst hvalue hstate
    rw [List.map_cons, List.foldl_cons]
    apply ih _ hmore
    · intro q hq
      exact made q (List.mem_cons_of_mem _ hq)
    · exact (h.define entry (made _ List.mem_cons_self)).declare _ _

end Keeps

/-- An operand has the type that its id is produced with, wherever that is. -/
def WellTyped (R : List Row) (p : Operand) : Prop := ∀ ty, (p.1, ty) ∈ R.flatMap Row.makes → p.2 = ty

/-- An operand is a typed result, or else stands for a variable. -/
def Rooted (R : List Row) (p : Operand) : Prop :=
  p ∈ R.flatMap Row.makes ∨ p.1 ∈ R.flatMap Row.varIds ∨ ∃ x, PlainName x ∧ p.1 = .named x

/-- No id is produced with two types, and the plain ids are produced with the types `final`. -/
structure Census (R : List Row) (final : String → Option Ty) : Prop where
  unique : ∀ v ty ty', (v, ty) ∈ R.flatMap Row.makes → (v, ty') ∈ R.flatMap Row.makes → ty = ty'
  plain : ∀ x, PlainName x → ∀ ty, (.named x, ty) ∈ R.flatMap Row.makes ↔ final x = some ty

theorem Census.wellTyped_iff {R : List Row} {final : String → Option Ty} (census : Census R final)
    {v : ValueId} {ty ty' : Ty} (made : (v, ty') ∈ R.flatMap Row.makes) :
    WellTyped R (v, ty) ↔ ty = ty' := by
  constructor
  · intro h
    exact h ty' made
  · rintro rfl ty'' made'
    exact census.unique v _ _ made made'

namespace Keeps

variable {R : List Row} {s : State} {l : Ledger}

theorem readsSteady_iff (h : Keeps R s l) {final : String → Option Ty} (census : Census R final)
    {x : String} (hx : PlainName x) : l.readsSteady final x = true ↔
      (s.home x ≠ .memory → WellTyped R (s.operandOf x)) := by
  have hheld := h.held x
  simp only [State.operandOf, Ledger.readsSteady, h.typeOf]
  generalize s.home x = home, l.held x = held at hheld
  cases hheld with
  | nothing =>
    simp only [WellTyped, Home.valueOf, census.plain x hx, ne_eq, reduceCtorEq, not_false_eq_true,
      true_imp_iff]
    cases final x <;> simp
  | value made => simp [Home.valueOf, census.wellTyped_iff made.made]
  | memory => simp

theorem rooted (h : Keeps R s l) {x : String} (hx : PlainName x) (hne : s.home x ≠ .memory) :
    Rooted R (s.operandOf x) := by
  have hheld := h.held x
  simp only [State.operandOf]
  generalize s.home x = home, l.held x = held at hheld hne
  cases hheld with
  | nothing => exact .inr (.inr ⟨x, hx, rfl⟩)
  | value made => exact .inr (.inl made.varId)
  | memory => exact absurd rfl hne

end Keeps

@[simp] theorem storeHead_operands (name : String) (value : ValueId) (ty : Ty) :
    (storeHead name value ty).operands = [(value, ty)] := rfl

def State.stores (s : State) (name : String) : List Row :=
  match s.home name with
  | .pending _ value => [.operator (storeHead name value (s.typeOf name))]
  | _ => []

namespace State

variable {s : State}

theorem stores_paired (name : String) : ∀ r ∈ s.stores name, r.Paired := by
  unfold stores
  split
  · intro r hr
    rw [List.mem_singleton.mp hr]
    exact ⟨rfl, rfl⟩
  · simp

private theorem mem_rows_promoteToMemory (placed : s.Placed) {name : String} {block : Nat}
    {value : ValueId} (home : s.home name = .pending block value) (r : Row) :
    r ∈ (s.promoteToMemory name).blocks.rows ↔ r ∈ s.blocks.rows ∨ r ∈ s.stores name := by
  have hblock := placed.pending name block value home
  have hblocks : (s.promoteToMemory name).blocks =
      s.blocks.emit block (.ofHead (storeHead name value (s.typeOf name))) := by
    rw [promoteToMemory_of_pending s name home]
    rfl
  rw [hblocks, Blocks.mem_rows_emit _ _ hblock, Staged.rows_ofHead]
  simp [stores, home]

theorem mem_rows_writeThrough (placed : s.Placed) (name : String) (r : Row) :
    r ∈ (s.writeThrough name).blocks.rows ↔ r ∈ s.blocks.rows ∨ r ∈ s.stores name := by
  cases home : s.home name with
  | undefined =>
    rw [writeThrough_of_undefined s name home]
    simp only [stores, home, List.not_mem_nil, or_false]
    unfold markMemory
    split <;> rfl
  | pending block value =>
    rw [writeThrough_of_pending s name home]
    exact mem_rows_promoteToMemory placed home r
  | memory =>
    rw [writeThrough_of_memory s name home]
    simp [stores, home]

theorem mem_rows_assign (placed : s.Placed) (name : String) (x : Operand) (annot : Option Ty)
    (r : Row) : r ∈ (s.assign name x annot).2.blocks.rows ↔ r ∈ s.blocks.rows ∨ r ∈ s.stores name := by
  cases home : s.home name with
  | undefined =>
    have hblocks : (s.assign name x annot).2.blocks = s.blocks := by
      obtain ⟨_, _, -, -, write⟩ | ⟨known, -, -⟩ := s.write_assign name x annot
      · cases write
        assumption
      · exact absurd home known
    rw [hblocks]
    simp [stores, home]
  | pending block value =>
    rw [assign, home]
    dsimp only
    rw [(Alike.declareIfAny name annot : Alike (s.promoteToMemory name) _).blocks]
    exact mem_rows_promoteToMemory placed home r
  | memory =>
    rw [assign, home]
    dsimp only
    rw [(Alike.declareIfAny name annot : Alike s _).blocks]
    simp [stores, home]

private theorem types_promoteToMemory {name : String} {block : Nat} {value : ValueId}
    (home : s.home name = .pending block value) : (s.promoteToMemory name).types = s.types := by
  rw [promoteToMemory_of_pending s name home]
  rfl

theorem types_writeThrough (name : String) : (s.writeThrough name).types = s.types := by
  cases home : s.home name with
  | undefined =>
    rw [writeThrough_of_undefined s name home]
    unfold markMemory
    split <;> rfl
  | pending block value =>
    rw [writeThrough_of_pending s name home]
    exact types_promoteToMemory home
  | memory => rw [writeThrough_of_memory s name home]

end State

namespace Keeps

variable {R : List Row} {s : State} {l : Ledger}

theorem rooted_stores (h : Keeps R s l) (name : String) :
    ∀ p ∈ (s.stores name).flatMap Row.uses, Rooted R p := by
  have hheld := h.held name
  unfold State.stores
  generalize s.home name = home, l.held name = held at hheld
  cases hheld with
  | nothing => simp
  | @value block value ty made =>
    intro p hp
    have hp : p = (value, s.typeOf name) := by
      simpa [Row.uses] using hp
    subst hp
    exact .inr (.inl made.varId)
  | memory => simp

theorem writesSteady_iff (h : Keeps R s l) {final : String → Option Ty} (census : Census R final)
    (name : String) : (∀ p ∈ (s.stores name).flatMap Row.uses, WellTyped R p) ↔
      l.writesSteady name = true := by
  have hheld := h.held name
  simp only [State.stores, Ledger.writesSteady, h.typeOf]
  generalize s.home name = home, l.held name = held at hheld
  cases hheld with
  | nothing => simp
  | value made =>
    simp [Row.uses, census.wellTyped_iff made.made]
  | memory => simp

theorem assign (h : Keeps R s l) (name : String) (x : Operand) (annot : Option Ty)
    (own : .operator (s.assign name x annot).1 ∈ R) :
    Keeps R (s.assign name x annot).2 (l.bind name x.2 annot) := by
  have hheld := h.held name
  cases home : s.home name with
  | undefined =>
    rw [home] at hheld
    generalize hl : l.held name = held at hheld
    cases hheld
    rw [State.assign_of_undefined s name x annot home] at own ⊢
    obtain ⟨hty, hsettled⟩ := h.settle name x.2 annot
    rw [Ledger.bind, hl, ← hty]
    apply hsettled.define
    refine ⟨_, own, ?_, ?_⟩
    · simp [Row.makes, Head.outcomes, Head.withResult]
    · cases annot <;> simp [Row.varIds]
  | pending block value =>
    rw [home] at hheld
    generalize hl : l.held name = held at hheld
    cases hheld
    have hmoved : Keeps R (s.promoteToMemory name) (l.move name) :=
      h.move (State.types_promoteToMemory home) (s.write_promoteToMemory name home)
    rw [State.assign, home, Ledger.bind, hl]
    cases annot with
    | none => exact hmoved
    | some ty => exact hmoved.declare name ty
  | memory =>
    rw [home] at hheld
    generalize hl : l.held name = held at hheld
    cases hheld
    have hmoved : Keeps R s (l.move name) := h.move rfl
      (.stay ⟨rfl, rfl, rfl⟩ home rfl rfl rfl fun _ => rfl)
    rw [State.assign, home, Ledger.bind, hl]
    cases annot with
    | none => exact hmoved
    | some ty => exact hmoved.declare name ty

end Keeps

theorem Keeps.initial (R : List Row) : Keeps R State.initial .empty where
  declared _ := rfl
  held _ := .nothing
  taken x := by simp [State.initial, State.enter, State.record, Ledger.empty]
  plain x ty h := by simp [Ledger.empty] at h

/-- A program whose ids are distinct has a census, which the ledger knows in the end. -/
theorem Keeps.census {op : Operator} {t : State} {l : Ledger} (h : Keeps op.rows t l)
    (draws : Draws State.initial op.produced t) (paired : ∀ r ∈ op.rows, r.Paired) :
    Census op.rows l.plain := by
  have hids : op.makes.map Prod.fst = op.produced := op.map_fst_makes paired
  have hnodup : (op.makes.map Prod.fst).Nodup := by
    rw [hids]
    exact draws.nodup List.nodup_nil
  have hunique : ∀ v ty ty', (v, ty) ∈ op.makes → (v, ty') ∈ op.makes → ty = ty' := by
    intro v ty ty' hmade hmade'
    exact congrArg Prod.snd (List.inj_on_of_nodup_map hnodup hmade hmade' rfl)
  refine ⟨hunique, ?_⟩
  intro x hx ty
  constructor
  · intro hmade
    have hproduced : ValueId.named x ∈ op.produced := by
      rw [← hids]
      exact List.mem_map_of_mem hmade
    have htaken : ValueId.named x ∈ t.taken := by
      rw [draws.plain]
      apply List.mem_append_left
      simp [hproduced, ValueId.counter?_named hx]
    obtain ⟨ty', hplain⟩ := Option.ne_none_iff_exists'.mp ((h.taken x).mp htaken)
    rw [hplain, hunique _ _ _ hmade (h.plain x ty' hplain).made]
  · intro hplain
    exact (h.plain x ty hplain).made

end RegionIR
