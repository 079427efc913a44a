import RegionIR.Proofs.Attributes
import RegionIR.Proofs.Isolation
import RegionIR.Proofs.Wrapping
/-!
# Lowering in step up to texts

Two runs that record different texts for expressions are otherwise the same. `Lower.Tracks inside k Q x y`
says that `x` and `y`, started in states that differ in such texts alone, fail with the same error or end
in states that do so again, with results related by `Q`. The texts of the second run have gained `k`
brackets or more, and with none they are equal.
-/
namespace RegionIR

namespace Attr

mutual

def textSize : Attr → Nat
  | .text s => Textual.size s
  | .list items => textSizeAll items
  | .int _ | .bigInt _ | .float _ | .bool _ | .unit | .functionType _ _ => 0
termination_by structural a => a

def textSizeAll : List Attr → Nat
  | [] => 0
  | a :: rest => textSize a + textSizeAll rest
termination_by structural as => as

end

mutual

def unbracketed : Attr → Attr
  | .text s => .text (Textual.bare s)
  | .list items => .list (unbracketedAll items)
  | other => other
termination_by structural a => a

def unbracketedAll : List Attr → List Attr
  | [] => []
  | a :: rest => unbracketed a :: unbracketedAll rest
termination_by structural as => as

end

instance : Textual Attr := ⟨textSize, unbracketed⟩

private theorem textSizeAll_eq (as : List Attr) : textSizeAll as = Textual.size as := by
  induction as with
  | nil => rfl
  | cons a rest ih => exact congrArg (textSize a + ·) ih

private theorem unbracketedAll_eq (as : List Attr) : unbracketedAll as = Textual.bare as := by
  induction as with
  | nil => rfl
  | cons a rest ih => exact congrArg (unbracketed a :: ·) ih

end Attr

/-- The attributes that hold the texts of expressions. -/
def Head.sourceKeys (h : Head) : List String :=
  match h.dialect, h.name with
  | .py, "call" => ["callee", "keywords"]
  | .py, "class" => ["bases", "keywords", "decorators"]
  | .py, "annAssign" => ["target", "annotation"]
  | .builtin, "func" => ["decorators"]
  | _, _ => []

namespace Attrs

def mapValues (f : String → Attr → Attr) (attrs : Attrs) : Attrs :=
  ⟨attrs.map fun p => (p.1, f p.1 p.2), List.pairwise_map.mpr attrs.ascending⟩

def textSize (attrs : Attrs) : Nat := (attrs.map fun p => Textual.size p.2).sum

private theorem map_place (f : String → Attr → Attr) (key : String) (a : Attr)
    (entries : List (String × Attr)) :
    (place key a entries).map (fun p => (p.1, f p.1 p.2)) =
      place key (f key a) (entries.map fun p => (p.1, f p.1 p.2)) := by
  induction entries with
  | nil => rfl
  | cons p rest ih =>
    simp only [place, List.map_cons]
    split
    · rfl
    · split
      · rfl
      · rw [List.map_cons, ih]

private theorem mapValues_set (f : String → Attr → Attr) (key : String) (a : Attr) (attrs : Attrs) :
    (attrs.set key a).mapValues f = (attrs.mapValues f).set key (f key a) :=
  Attrs.ext (map_place f key a attrs.entries)

private theorem get?_mapValues (f : String → Attr → Attr) (key : String) (attrs : Attrs) :
    (attrs.mapValues f).get? key = (attrs.get? key).map (f key) := by
  have hentries : (attrs.mapValues f).entries = attrs.entries.map fun p => (p.1, f p.1 p.2) := rfl
  rw [get?, get?, hentries, List.find?_map, Option.map_map, Option.map_map]
  refine Option.map_congr fun p hp => ?_
  have hkey : p.1 = key := by simpa using List.find?_some hp
  simp [hkey]

private theorem sum_place {key : String} {entries : List (String × Attr)}
    (new : ∀ p ∈ entries, p.1 ≠ key)
    (a : Attr) : ((place key a entries).map fun p => Textual.size p.2).sum =
      (entries.map fun p => Textual.size p.2).sum + Textual.size a := by
  induction entries with
  | nil => simp [place]
  | cons p rest ih =>
    obtain ⟨k, b⟩ := p
    obtain ⟨hp, hrest⟩ := List.forall_mem_cons.mp new
    have hsum := ih hrest
    simp only [place]
    split
    · simp only [List.map_cons, List.sum_cons]
      omega
    · rw [if_neg fun h => hp h.symm, List.map_cons, List.sum_cons, hsum, List.map_cons, List.sum_cons]
      omega

private theorem textSize_set {key : String} {attrs : Attrs} (new : attrs.get? key = none) (a : Attr) :
    (attrs.set key a).textSize = attrs.textSize + Textual.size a := by
  refine sum_place (fun p hp hkey => ?_) a
  rw [get?, Option.map_eq_none_iff, List.find?_eq_none] at new
  exact new p hp (decide_eq_true hkey)

end Attrs

namespace Head

/-- An operator's own line with the texts of expressions without brackets and commas. -/
def unbracketed (h : Head) : Head :=
  { h with attrs := h.attrs.mapValues fun key a => if key ∈ h.sourceKeys then Textual.bare a else a }

instance : Textual Head := ⟨fun h => h.attrs.textSize, unbracketed⟩

private theorem unbracketed_withAttr (h : Head) (key : String) (a : Attr) :
    (h.withAttr key a).unbracketed =
    h.unbracketed.withAttr key (if key ∈ h.sourceKeys then Textual.bare a else a) :=
  congrArg (fun attrs => { h with attrs }) (Attrs.mapValues_set _ key a h.attrs)

private theorem sourceKeys_eq_of_unbracketed {h h' : Head} (same : h'.unbracketed = h.unbracketed) :
    h'.sourceKeys = h.sourceKeys := by
  have hkeys : h'.unbracketed.sourceKeys = h.unbracketed.sourceKeys := by rw [same]
  exact hkeys

private theorem get?_eq_none_of_unbracketed {h h' : Head} (same : h'.unbracketed = h.unbracketed)
    {key : String} (new : h.attrs.get? key = none) : h'.attrs.get? key = none := by
  have hget : h'.unbracketed.attrs.get? key = h.unbracketed.attrs.get? key := by rw [same]
  rw [unbracketed, unbracketed, Attrs.get?_mapValues, Attrs.get?_mapValues, new] at hget
  exact Option.map_eq_none_iff.mp hget

end Head

namespace Operator

def mapHeads (f : Head → Head) (op : Operator) : Operator := op.mapHeadsAt fun _ => f

def mapHeadsRegion (f : Head → Head) (r : Region) : Region :=
  .mk (r.blocks.map fun b => .mk b.label (b.items.map (mapHeads f)))

private theorem mapAllAt_const (f : Head → Head) (i j k : Nat) (ops : List Operator) :
    mapAllAt (fun _ => f) i j k ops = ops.map (mapHeads f) := by
  induction ops generalizing k with
  | nil => rfl
  | cons op rest ih => exact congrArg (mapHeads f op :: ·) (ih (k + 1))

private theorem mapBlocksAt_const (f : Head → Head) (i j : Nat) (bs : List Block) :
    mapBlocksAt (fun _ => f) i j bs = bs.map fun b => .mk b.label (b.items.map (mapHeads f)) := by
  induction bs generalizing j with
  | nil => rfl
  | cons b rest ih =>
    obtain ⟨label, items⟩ := b
    rw [mapBlocksAt, mapAllAt_const, ih]
    rfl

theorem mapRegionsAt_const (f : Head → Head) (i : Nat) (rs : List Region) :
    mapRegionsAt (fun _ => f) i rs = rs.map (mapHeadsRegion f) := by
  induction rs generalizing i with
  | nil => rfl
  | cons r rest ih =>
    obtain ⟨blocks⟩ := r
    rw [mapRegionsAt, mapBlocksAt_const, ih]
    rfl

instance : Textual Operator where
  size op := (op.walk.map fun o => Textual.size o.head).sum
  bare := mapHeads Textual.bare

end Operator

instance : Textual Staged where
  size staged := Textual.size staged.op.head
  bare staged := { staged with op := Textual.bare staged.op }

namespace Loosened

variable {α β : Type} [Textual α] [Textual β] {k l : Nat}

theorem map (f : α → β) {a a' : α} (h : Loosened k a a')
    (hbare : Textual.bare a' = Textual.bare a → Textual.bare (f a') = Textual.bare (f a))
    (hsize : ∀ b, Textual.size (f b) = Textual.size b) : Loosened k (f a) (f a') := by
  constructor
  · exact hbare h.bare
  · rw [hsize, hsize]
    exact h.size
  · intro hk
    rw [h.same hk]

theorem text {s s' : String} (h : Loosened k s s') : Loosened k (Attr.text s) (Attr.text s') :=
  h.map Attr.text (congrArg Attr.text) fun _ => rfl

theorem list {as as' : List Attr} (h : Loosened k as as') : Loosened k (Attr.list as) (Attr.list as') := by
  apply h.map Attr.list
  · intro hbare
    rw [← Attr.unbracketedAll_eq, ← Attr.unbracketedAll_eq] at hbare
    exact congrArg Attr.list hbare
  · exact Attr.textSizeAll_eq

theorem withArgs {h h' : Head} (hh : Loosened k h h') (xs : List Operand) :
    Loosened k (h.withArgs xs) (h'.withArgs xs) :=
  hh.map (Head.withArgs · xs) (congrArg (Head.withArgs · xs)) fun _ => rfl

private theorem withResult {h h' : Head} (hh : Loosened k h h') (value : ValueId) (ty : Ty) :
    Loosened k (h.withResult value ty) (h'.withResult value ty) :=
  hh.map (Head.withResult · value ty) (congrArg (Head.withResult · value ty)) fun _ => rfl

theorem ofHead {h h' : Head} (hh : Loosened k h h') (slots : List Slot) :
    Loosened k (Staged.ofHead h slots) (Staged.ofHead h' slots) :=
  hh.map (Staged.ofHead · slots) (congrArg (Staged.ofHead · slots)) fun _ => rfl

theorem withAttr {h h' : Head} (hh : Loosened k h h') {key : String} {a a' : Attr} (ha : Loosened l a a')
    (source : key ∈ h.sourceKeys ∨ a' = a) (new : h.attrs.get? key = none) :
    Loosened (k + l) (h.withAttr key a) (h'.withAttr key a') := by
  constructor
  · have hbare : h'.unbracketed = h.unbracketed := hh.bare
    show (h'.withAttr key a').unbracketed = (h.withAttr key a).unbracketed
    rw [Head.unbracketed_withAttr, Head.unbracketed_withAttr, hbare,
      Head.sourceKeys_eq_of_unbracketed hbare]
    rcases source with hkey | rfl
    · rw [if_pos hkey, if_pos hkey, ha.bare]
    · rfl
  · have hsize : h.attrs.textSize + k ≤ h'.attrs.textSize := hh.size
    have hattr := ha.size
    have hnew := Head.get?_eq_none_of_unbracketed hh.bare new
    show (h.attrs.set key a).textSize + (k + l) ≤ (h'.attrs.set key a').textSize
    rw [Attrs.textSize_set new, Attrs.textSize_set hnew]
    omega
  · intro h
    rw [hh.same (by omega), ha.same (by omega)]

end Loosened

namespace Blocks

private theorem bare_emit (bs : Blocks) (block : Nat) (op : Staged) :
    Textual.bare (bs.emit block op) = emit (Textual.bare bs) block (Textual.bare op) := by
  induction bs generalizing block with
  | nil => cases block <;> rfl
  | cons items rest ih =>
    cases block with
    | zero => simp [emit, Textual.bare]
    | succ block => exact congrArg (Textual.bare items :: ·) (ih block)

private theorem size_emit (bs : Blocks) (block : Nat) (op : Staged) : Textual.size (bs.emit block op) =
    Textual.size bs + if block < bs.length then Textual.size op else 0 := by
  induction bs generalizing block with
  | nil => cases block <;> rfl
  | cons items rest ih =>
    cases block with
    | zero =>
      simp [emit, Textual.size]
      omega
    | succ block =>
      have hrest := ih block
      simp only [emit, Textual.size, List.modify_succ_cons, List.map_cons, List.sum_cons,
        List.length_cons, Nat.add_lt_add_iff_right] at hrest ⊢
      omega

private theorem count_bare (bs : Blocks) (block : Nat) :
    count (Textual.bare bs) block = bs.count block := by
  cases hitems : bs[block]? <;> simp [Textual.bare, count, contents, hitems]

variable {k l : Nat} {bs bs' : Blocks}

private theorem length_of_loosened (h : Loosened k bs bs') : bs'.length = bs.length := by
  have hlength := congrArg List.length h.bare
  simpa [Textual.bare] using hlength

private theorem count_of_loosened (h : Loosened k bs bs') (block : Nat) :
    bs'.count block = bs.count block := by
  rw [← count_bare, h.bare, count_bare]

private theorem loosened_emit (h : Loosened k bs bs') {block : Nat} {op op' : Staged}
    (hop : Loosened l op op')
    (inside : block < bs.length ∨ l = 0) : Loosened (k + l) (bs.emit block op) (bs'.emit block op') := by
  constructor
  · rw [bare_emit, bare_emit, h.bare, hop.bare]
  · have hsize := h.size
    have hown := hop.size
    rw [size_emit, size_emit, length_of_loosened h]
    split <;> omega
  · intro hkl
    rw [h.same (by omega), hop.same (by omega)]

private theorem loosened_extend (h : Loosened k bs bs') : Loosened k bs.extend bs'.extend := by
  apply h.map extend
  · intro hbare
    simp only [Textual.bare, extend, List.map_append] at hbare ⊢
    rw [hbare]
  · intro bs
    simp [Textual.size, extend]

end Blocks

/-- The state `t` is in the same place as `s`. -/
structure Stays (s t : State) : Prop where
  sites : t.sites = s.sites
  nesting : t.nesting = s.nesting
  length : s.blocks.length ≤ t.blocks.length

theorem Stays.refl (s : State) : Stays s s := ⟨rfl, rfl, le_rfl⟩

theorem Stays.trans {s t u : State} (first : Stays s t) (second : Stays t u) : Stays s u :=
  ⟨second.sites.trans first.sites, second.nesting.trans first.nesting, first.length.trans second.length⟩

abbrev State.withBlocks (s : State) (bs : Blocks) : State := { s with blocks := bs }

/-- The step stays in its place, and does the same in all states with such blocks. -/
def State.Uniform {α : Type} (f : State → α × State) : Prop :=
  ∀ (s : State) (k : Nat) (bs : Blocks), Loosened k s.blocks bs →
    ∃ cs, f (s.withBlocks bs) = ((f s).1, (f s).2.withBlocks cs) ∧ Stays s (f s).2 ∧ Loosened k (f s).2.blocks cs

namespace State

namespace Uniform

variable {α β : Type}

private theorem of_blocks {f : State → α × State}
    (apart : ∀ s bs, f (s.withBlocks bs) = ((f s).1, (f s).2.withBlocks bs))
    (sites : ∀ s, (f s).2.sites = s.sites) (nesting : ∀ s, (f s).2.nesting = s.nesting)
    (blocks : ∀ s, (f s).2.blocks = s.blocks) : Uniform f := by
  intro s k bs h
  refine ⟨bs, apart s bs, ⟨sites s, nesting s, ?_⟩, ?_⟩
  · rw [blocks]
  · rwa [blocks]

theorem bind {f : State → α × State} {g : α → State → β × State} (hf : Uniform f)
    (hg : ∀ a, Uniform (g a)) : Uniform fun s => g (f s).1 (f s).2 := by
  intro s k bs h
  obtain ⟨cs, hfirst, stays, blocks⟩ := hf s k bs h
  obtain ⟨ds, hsecond, stays', blocks'⟩ := hg (f s).1 (f s).2 k cs blocks
  refine ⟨ds, ?_, stays.trans stays', blocks'⟩
  show g (f (s.withBlocks bs)).1 (f (s.withBlocks bs)).2 = _
  rw [hfirst]
  exact hsecond

theorem declare (name : String) (ty : Ty) : Uniform fun s => ((), s.declare name ty) := by
  apply of_blocks <;> intros <;> rfl

private theorem declareIfAny (a : α) (name : String) (declared : Option Ty) :
    Uniform fun s => (a, s.declareIfAny name declared) := by
  cases declared <;> apply of_blocks <;> intros <;> rfl

private theorem define (a : α) (name : String) (value : ValueId) :
    Uniform fun s => (a, s.define name value) := by
  apply of_blocks <;> intros <;> rfl

private theorem freshDefinition (name : String) : Uniform (·.freshDefinition name) := by
  intro s k bs h
  by_cases htaken : ValueId.named name ∈ s.taken
  · simp only [State.freshDefinition, htaken, if_true]
    exact ⟨bs, rfl, ⟨rfl, rfl, le_rfl⟩, h⟩
  · simp only [State.freshDefinition, htaken, if_false]
    exact ⟨bs, rfl, ⟨rfl, rfl, le_rfl⟩, h⟩

private theorem definitionTy (name : String) (valueTy : Ty) (declared : Option Ty) :
    Uniform (·.definitionTy name valueTy declared) := by
  intro s k bs h
  cases declared with
  | some ty => exact ⟨bs, rfl, ⟨rfl, rfl, le_rfl⟩, h⟩
  | none =>
    have hdeclared : (s.withBlocks bs).declared? name = s.declared? name := rfl
    cases hs : s.declared? name with
    | some ty =>
      simp only [State.definitionTy, hdeclared, hs]
      exact ⟨bs, rfl, .refl s, h⟩
    | none =>
      simp only [State.definitionTy, hdeclared, hs]
      cases valueTy.isUnknown with
      | true => exact ⟨bs, rfl, .refl s, h⟩
      | false => exact ⟨bs, rfl, ⟨rfl, rfl, le_rfl⟩, h⟩

theorem parameter (name : String) (ty : Ty) (entry : Nat) : Uniform (·.bind name ty entry) := by
  apply bind (g := fun value s => (value, (s.defineIn name value entry).declare name ty))
    (freshDefinition name)
  intro value
  apply of_blocks <;> intros <;> rfl

theorem read (name : String) : Uniform (·.read name) := by
  intro s k bs h
  have hhome : (s.withBlocks bs).home name = s.home name := rfl
  have hty : (s.withBlocks bs).typeOf name = s.typeOf name := rfl
  cases hs : s.home name with
  | memory =>
    simp only [State.read, hhome, hs, hty]
    exact ⟨_, rfl, ⟨rfl, rfl, (Blocks.length_emit _ _ _).ge⟩, Blocks.loosened_emit h (.refl _) (.inr rfl)⟩
  | undefined =>
    simp only [State.read, hhome, hs, hty]
    exact ⟨bs, rfl, .refl s, h⟩
  | pending block value =>
    simp only [State.read, hhome, hs, hty]
    exact ⟨bs, rfl, .refl s, h⟩

private theorem promoteToMemory (name : String) : Uniform fun s => ((), s.promoteToMemory name) := by
  intro s k bs h
  cases hs : s.scope.pending.find? name with
  | none =>
    simp only [State.promoteToMemory, promote, State.scope] at hs ⊢
    simp only [hs]
    exact ⟨bs, rfl, ⟨rfl, rfl, le_rfl⟩, h⟩
  | some p =>
    simp only [State.promoteToMemory, promote, State.scope] at hs ⊢
    simp only [hs]
    exact ⟨_, rfl, ⟨rfl, rfl, (Blocks.length_emit _ _ _).ge⟩, Blocks.loosened_emit h (.refl _) (.inr rfl)⟩

private theorem markMemory (name : String) : Uniform fun s => ((), s.markMemory name) := by
  intro s k bs h
  by_cases hmem : name ∈ s.scope.memory
  · have hmem' : name ∈ (s.withBlocks bs).scope.memory := hmem
    simp only [State.markMemory, hmem, hmem', if_true]
    exact ⟨bs, rfl, ⟨rfl, rfl, le_rfl⟩, h⟩
  · have hmem' : name ∉ (s.withBlocks bs).scope.memory := hmem
    simp only [State.markMemory, hmem, hmem', if_false]
    exact ⟨bs, rfl, ⟨rfl, rfl, le_rfl⟩, h⟩

theorem writeThrough (name : String) : Uniform fun s => ((), s.writeThrough name) := by
  intro s k bs h
  have hhome : (s.withBlocks bs).home name = s.home name := rfl
  cases hs : s.home name with
  | undefined =>
    simp only [State.writeThrough, hhome, hs]
    exact markMemory name s k bs h
  | pending block value =>
    simp only [State.writeThrough, hhome, hs]
    exact promoteToMemory name s k bs h
  | memory =>
    simp only [State.writeThrough, hhome, hs]
    exact ⟨bs, rfl, .refl s, h⟩

theorem assign (name : String) (x : Operand) (declared : Option Ty) :
    Uniform (·.assign name x declared) := by
  intro s k bs h
  have hhome : (s.withBlocks bs).home name = s.home name := rfl
  cases hs : s.home name with
  | undefined =>
    simp only [State.assign, hhome, hs]
    let opcode := if declared.isSome then "cast" else "assign"
    exact (definitionTy name x.2 declared).bind (fun ty => (freshDefinition name).bind fun value =>
      define (((Head.py opcode).withArgs [x]).withResult value ty) name value) s k bs h
  | pending block value =>
    simp only [State.assign, hhome, hs]
    exact (promoteToMemory name).bind (fun _ => declareIfAny _ name declared) s k bs h
  | memory =>
    simp only [State.assign, hhome, hs]
    exact declareIfAny _ name declared s k bs h

end Uniform

end State

namespace Lower

variable {α β : Type}

/-- The outcomes of two steps, the second in a state that has loosened blocks. -/
inductive Together (s : State) (k : Nat) (Q : α → β → Prop) :
    EStateM.Result LowerError State α → EStateM.Result LowerError State β → Prop
  | ok {a : α} {b : β} {t : State} {bs : Blocks} (stays : Stays s t) (blocks : Loosened k t.blocks bs)
      (result : Q a b) : Together s k Q (.ok a t) (.ok b (t.withBlocks bs))
  | error {e : LowerError} {t t' : State} : Together s k Q (.error e t) (.error e t')

private theorem Together.since {s t : State} {k : Nat} {Q : α → β → Prop}
    {r : EStateM.Result LowerError State α}
    {r' : EStateM.Result LowerError State β} (h : Together t k Q r r') (stays : Stays s t) :
    Together s k Q r r' := by
  cases h with
  | ok stays' blocks result => exact .ok (stays.trans stays') blocks result
  | error => exact .error

theorem Together.map {s s' : State} {k : Nat} {x y : Lower α} (f : α → β) (h : Together s k Eq (x s) (y s')) :
    Together s k Eq ((f <$> x) s) ((f <$> y) s') := by
  show Together s k Eq (EStateM.map f x s) (EStateM.map f y s')
  rw [EStateM.map, EStateM.map]
  generalize x s = r, y s' = r' at h
  cases h with
  | ok stays blocks result => exact .ok stays blocks (congrArg f result)
  | error => exact .error

/-- At a place that is inside of a function or not, the two steps go together and loosen the blocks by
`k`. -/
def Tracks (inside : Bool) (k : Nat) (Q : α → β → Prop) (x : Lower α) (y : Lower β) : Prop :=
  ∀ (s : State) (j : Nat) (bs : Blocks), s.current < s.blocks.length → s.inFunction = inside →
    Loosened j s.blocks bs → Together s (j + k) Q (x s) (y (s.withBlocks bs))

namespace Tracks

variable {γ δ : Type} {inside : Bool} {k l : Nat} {Q : α → β → Prop} {R : γ → δ → Prop}

theorem pure {a : α} {b : β} (h : Q a b) : Tracks inside 0 Q (pure a) (pure b) :=
  fun s _ _ _ _ hbs => .ok (.refl s) hbs h

theorem refuse (construct : Construct) (span : Option Span) :
    Tracks inside k Q (refuse construct span) (refuse construct span) := fun _ _ _ _ _ _ => .error

theorem bind {x : Lower α} {y : Lower β} {f : α → Lower γ} {g : β → Lower δ} (hx : Tracks inside k Q x y)
    (hf : ∀ a b, Q a b → Tracks inside l R (f a) (g b)) : Tracks inside (k + l) R (x >>= f) (y >>= g) := by
  intro s j bs hopen hinside hbs
  have first := hx s j bs hopen hinside hbs
  show Together s (j + (k + l)) R (EStateM.bind x f s) (EStateM.bind y g (s.withBlocks bs))
  rw [EStateM.bind, EStateM.bind]
  generalize x s = r, y (s.withBlocks bs) = r' at first
  cases first with
  | error => exact .error
  | @ok a b t cs stays blocks result =>
    have hopen' : t.current < t.blocks.length := by
      rw [State.current, stays.nesting]
      exact hopen.trans_le stays.length
    have hinside' : t.inFunction = inside := by
      rw [State.inFunction, State.site, stays.sites]
      exact hinside
    have second := hf a b result t (j + k) cs hopen' hinside' blocks
    rw [Nat.add_assoc] at second
    exact second.since stays

theorem next {x y : Lower α} {f : α → Lower γ} {g : α → Lower δ} (hx : Tracks inside k Eq x y)
    (hf : ∀ a, Tracks inside l R (f a) (g a)) : Tracks inside (k + l) R (x >>= f) (y >>= g) := by
  apply bind hx
  rintro a _ rfl
  exact hf a

theorem step {f : State → α × State} (hf : State.Uniform f) :
    Tracks inside 0 Eq (Lower.step f) (Lower.step f) := by
  intro s j bs _ _ hbs
  obtain ⟨cs, hapart, stays, blocks⟩ := hf s j bs hbs
  have hstep (s : State) : Lower.step f s = .ok (f s).1 (f s).2 := rfl
  rw [hstep, hstep, hapart]
  exact .ok stays blocks rfl

theorem lead {x y : Lower α} {f : α → Lower γ} {g : α → Lower δ} (hx : Tracks inside 0 Eq x y)
    (hf : ∀ a, Tracks inside l R (f a) (g a)) : Tracks inside l R (x >>= f) (y >>= g) := by
  have h := next hx hf
  rwa [Nat.zero_add] at h

theorem update {f : State → State} (hf : State.Uniform fun s => ((), f s)) :
    Tracks inside 0 Eq (modify f : Lower PUnit) (modify f) := step hf

theorem emit {op op' : Staged} (h : Loosened l op op') :
    Tracks inside l Eq (Lower.emit op) (Lower.emit op') := by
  intro s j bs hopen _ hbs
  exact .ok ⟨rfl, rfl, (Blocks.length_emit _ _ _).ge⟩ (Blocks.loosened_emit hbs h (.inl hopen)) rfl

theorem emitResult {h h' : Head} (hh : Loosened l h h') (ty : Ty) :
    Tracks inside l Eq (Lower.emitResult h ty) (Lower.emitResult h' ty) := by
  intro s j bs hopen _ hbs
  have hop := (hh.withResult (.numbered s.counter) ty).ofHead []
  exact .ok ⟨rfl, rfl, (Blocks.length_emit _ _ _).ge⟩ (Blocks.loosened_emit hbs hop (.inl hopen)) rfl

theorem compute (h : Head) (ty : Ty) : Tracks inside 0 Eq (Lower.emitResult h ty) (Lower.emitResult h ty) :=
  emitResult (.refl h) ty

theorem guard {p q : Prop} [Decidable p] [Decidable q] (same : q ↔ p) {construct : Construct}
    {span : Option Span} {f : Unit → Lower α} {g : Unit → Lower β} (hf : Tracks inside k Q (f ()) (g ())) :
    Tracks inside k Q (if p then Lower.refuse construct span >>= f else f ())
      (if q then Lower.refuse construct span >>= g else g ()) := by
  by_cases hp : p
  · rw [if_pos hp, if_pos (same.mpr hp)]
    exact fun _ _ _ _ _ _ => .error
  · rw [if_neg hp, if_neg (mt same.mp hp)]
    exact hf

theorem ask {p q : State → γ} {f : γ → Lower α} {g : γ → Lower β}
    (same : ∀ (s : State) bs, q (s.withBlocks bs) = p s) (hf : ∀ c, Tracks inside k Q (f c) (g c)) :
    Tracks inside k Q (do f (p (← get))) (do g (q (← get))) := by
  intro s j bs hopen hinside hbs
  show Together s (j + k) Q (f (p s) s) (g (q (s.withBlocks bs)) (s.withBlocks bs))
  rw [same s bs]
  exact hf _ s j bs hopen hinside hbs

theorem site {x x' : Lower α} {y y' : Lower β} (yes : inside = true → Tracks inside k Q x y)
    (no : inside = false → Tracks inside k Q x' y') :
    Tracks inside k Q (do if (← get).inFunction then x else x')
      (do if (← get).inFunction then y else y') := by
  intro s j bs hopen hinside hbs
  have hinside' : (s.withBlocks bs).inFunction = inside := hinside
  show Together s (j + k) Q ((if s.inFunction then x else x') s)
    ((if (s.withBlocks bs).inFunction then y else y') (s.withBlocks bs))
  rw [hinside, hinside']
  cases inside with
  | true => exact yes rfl s j bs hopen hinside hbs
  | false => exact no rfl s j bs hopen hinside hbs

end Tracks

/-- A step in a new block, which is left at the end. -/
theorem together_inBlock {s : State} {inside : Bool} {j k : Nat} {bs : Blocks} {f g : Nat → Lower α}
    (hinside : s.inFunction = inside) (hbs : Loosened j s.blocks bs)
    (hf : ∀ block, Tracks inside k Eq (f block) (g block)) :
    Together s (j + k) Eq (inBlock f s) (inBlock g (s.withBlocks bs)) := by
  have hlength := Blocks.length_of_loosened hbs
  have henter : (s.withBlocks bs).enter = s.enter.withBlocks bs.extend := by
    simp [State.enter, State.record, hlength]
  have hopen : s.enter.current < s.enter.blocks.length := by
    simp [State.enter, State.record, State.current, Blocks.extend]
  have inner := hf s.blocks.length s.enter j bs.extend hopen hinside (Blocks.loosened_extend hbs)
  have hs : inBlock f s = EStateM.bind (f s.blocks.length)
    (fun a => leave s.blocks.length >>= fun _ => pure (s.blocks.length, a)) s.enter := rfl
  have hs' : inBlock g (s.withBlocks bs) = EStateM.bind (g bs.length)
    (fun a => leave bs.length >>= fun _ => pure (bs.length, a)) (s.withBlocks bs).enter := rfl
  rw [hs, hs', henter, hlength, EStateM.bind, EStateM.bind]
  generalize f s.blocks.length s.enter = r, g s.blocks.length (s.enter.withBlocks bs.extend) = r' at inner
  cases inner with
  | error => exact .error
  | @ok a b t cs stays blocks result =>
    subst result
    have hnesting : t.nesting = s.blocks.length :: s.nesting := stays.nesting
    -- The journal notes the number of operators in the block, which is the same in both.
    have hleave (ds : Blocks) (hcount : ds.count s.blocks.length = t.blocks.count s.blocks.length) :
        leave s.blocks.length (t.withBlocks ds) = .ok () ((({ t with nesting := s.nesting }).record
          (.left s.blocks.length (t.blocks.count s.blocks.length))).withBlocks ds) := by
      rw [leave_eq, State.leave?]
      simp [hnesting, State.record, hcount]
    have hfirst : leave s.blocks.length t = _ := hleave t.blocks rfl
    have hsecond := hleave cs (Blocks.count_of_loosened blocks _)
    show Together s (j + k) Eq (EStateM.bind (leave s.blocks.length) _ t)
      (EStateM.bind (leave s.blocks.length) _ (t.withBlocks cs))
    rw [EStateM.bind, EStateM.bind, hfirst, hsecond]
    have hgrown : s.blocks.length ≤ s.enter.blocks.length := by
      simp [State.enter, State.record, Blocks.extend]
    exact .ok ⟨stays.sites, rfl, hgrown.trans stays.length⟩ blocks rfl

namespace Tracks

variable {γ δ : Type} {inside : Bool} {k l : Nat} {R : γ → δ → Prop}

theorem inBlock {f g : Nat → Lower α} (hf : ∀ block, Tracks inside k Eq (f block) (g block)) :
    Tracks inside k Eq (inBlock f) (inBlock g) :=
  fun _ _ _ _ hinside hbs => together_inBlock hinside hbs hf

theorem region {x y : Lower Unit} (hx : Tracks inside k Eq x y) :
    Tracks inside k Eq (region x) (region y) := by
  rw [Lower.region, Lower.region]
  exact next (inBlock fun _ => hx) fun _ => pure rfl

end Tracks

/-- The way into a definition and out of it again. The place inside is in a function or not. -/
structure Detour (inner : Bool) (enter leave : State → State) : Prop where
  inFunction : ∀ s, (enter s).inFunction = inner
  nesting : ∀ s, (enter s).nesting = s.nesting
  blocks : ∀ s, (enter s).blocks = s.blocks
  withBlocks : ∀ s bs, enter (s.withBlocks bs) = (enter s).withBlocks bs
  back : ∀ {s t}, Stays (enter s) t → Stays s (leave t)
  blocks' : ∀ s, (leave s).blocks = s.blocks
  withBlocks' : ∀ s bs, leave (s.withBlocks bs) = (leave s).withBlocks bs

theorem function_detour : Detour true State.pushFunction State.popFunction where
  inFunction _ := rfl
  nesting _ := rfl
  blocks _ := rfl
  withBlocks _ _ := rfl
  back h := ⟨congrArg List.tail h.sites, h.nesting, h.length⟩
  blocks' _ := rfl
  withBlocks' _ _ := rfl

theorem class_detour : Detour false State.pushClass State.popClass where
  inFunction _ := rfl
  nesting _ := rfl
  blocks _ := rfl
  withBlocks _ _ := rfl
  back h := ⟨congrArg List.tail h.sites, h.nesting, h.length⟩
  blocks' _ := rfl
  withBlocks' _ _ := rfl

theorem Tracks.detour {γ δ : Type} {R : γ → δ → Prop} {inside inner : Bool} {k l : Nat}
    {enter leave : State → State} {x y : Lower α} {f : α → Lower γ} {g : α → Lower δ}
    (way : Detour inner enter leave) (hx : Tracks inner k Eq x y)
    (hf : ∀ a, Tracks inside l R (f a) (g a)) :
    Tracks inside (k + l) R (modify enter >>= fun _ => x >>= fun a => modify leave >>= fun _ => f a)
      (modify enter >>= fun _ => y >>= fun a => modify leave >>= fun _ => g a) := by
  have hinner : Tracks inside k Eq
      (modify enter >>= fun _ => x >>= fun a => modify leave >>= fun _ => Pure.pure a)
      (modify enter >>= fun _ => y >>= fun a => modify leave >>= fun _ => Pure.pure a) := by
    intro s j bs hopen _ hbs
    have hopen' : (enter s).current < (enter s).blocks.length := by
      rw [State.current, way.nesting, way.blocks]
      exact hopen
    have inner := hx (enter s) j bs hopen' (way.inFunction s) (by rwa [way.blocks])
    rw [← way.withBlocks] at inner
    show Together s (j + k) Eq (EStateM.bind x (fun a => modify leave >>= fun _ => Pure.pure a) (enter s))
      (EStateM.bind y (fun a => modify leave >>= fun _ => Pure.pure a) (enter (s.withBlocks bs)))
    rw [EStateM.bind, EStateM.bind]
    generalize x (enter s) = r, y (enter (s.withBlocks bs)) = r' at inner
    cases inner with
    | error => exact .error
    | @ok a b t cs stays blocks result =>
      show Together s (j + k) Eq (.ok a (leave t)) (.ok b (leave (t.withBlocks cs)))
      rw [way.withBlocks' t cs]
      exact .ok (way.back stays) (by rwa [way.blocks']) result
  have h := hinner.next hf
  simpa only [bind_assoc, pure_bind] using h

end Lower

end RegionIR
