import RegionIR.Proofs.Reordering
/-!
# Decoding while scanning

A tree that comes as a text is decoded while its root is being scanned. On a text that holds a value
the outcome is the same as that of decoding the value, since a mismatch found early is one that the
value has as well. Runs of readers are compared as options: which of several failures is met first
depends on the order, whether there is one does not.
-/
namespace RegionIR

namespace Schema

open Json (Cursor Reader Value UniqueKeys)

@[simp] theorem size_skipSpace (c : Cursor) : c.skipSpace.size = c.size := rfl

@[simp] theorem size_advance (c : Cursor) (n : Nat) : (c.advance n).size = c.size := rfl

/-- What a reader returns with the cursor it leaves, if it does not fail. -/
def outcome {ε α : Type} (r : StateT Cursor (Except ε) α) (c : Cursor) : Option (α × Cursor) :=
  (r.run c).toOption

section Outcomes

variable {ε α β : Type} (c : Cursor)

@[simp] theorem outcome_pure (a : α) :
    outcome (pure a : StateT Cursor (Except ε) α) c = some (a, c) := rfl

@[simp] theorem outcome_bind (r : StateT Cursor (Except ε) α) (f : α → StateT Cursor (Except ε) β) :
    outcome (r >>= f) c = (outcome r c).bind fun p => outcome (f p.1) p.2 := by
  rw [outcome, StateT.run_bind, toOption_bind]
  rfl

@[simp] theorem outcome_map (f : α → β) (r : StateT Cursor (Except ε) α) :
    outcome (f <$> r) c = (outcome r c).map fun p => (f p.1, p.2) := by
  rw [outcome, StateT.run_map, toOption_map]
  rfl

@[simp] theorem outcome_failHere (f : Json.Fault) : outcome (Reader.failHere f : Reader α) c = none := rfl

@[simp] theorem outcome_failAhead (f : Json.Fault) : outcome (Reader.failAhead f : Reader α) c = none := rfl

@[simp] theorem outcome_advance (n : Nat) : outcome (Reader.advance n) c = some ((), c.advance n) := rfl

@[simp] theorem outcome_peekToken :
    outcome Reader.peekToken c = some (c.skipSpace.rest.head?, c.skipSpace) := rfl

@[simp] theorem outcome_stepBound : outcome Reader.stepBound c = some (c.size + 1, c) := rfl

@[simp] theorem outcome_lift (r : Reader α) : outcome (RootReader.lift r) c = outcome r c := by
  change ((r.run c).mapError RootFault.fault).toOption = (r.run c).toOption
  cases r.run c <;> rfl

@[simp] theorem outcome_mismatchHere (m : Mismatch) :
    outcome (RootReader.mismatchHere m : RootReader α) c = none := rfl

@[simp] theorem outcome_ofExcept (x : Except Mismatch α) :
    outcome (RootReader.ofExcept x) c = x.toOption.map fun a => (a, c) := by
  cases x <;> rfl

end Outcomes

def IsScalar (v : Value) : Prop := (∀ items, v ≠ .array items) ∧ ∀ ms, v ≠ .object ms

private theorem isSpace_of_isDigit {c : Char} (h : c.isDigit = true) : Text.isSpace c = false := by
  simp only [Char.isDigit, Bool.and_eq_true, decide_eq_true_eq, UInt32.le_iff_toNat_le, ge_iff_le] at h
  have hlow : 48 ≤ c.toNat := h.1
  have hhigh : c.toNat ≤ 57 := h.2
  simp only [Text.isSpace, Bool.or_eq_false_iff, Bool.and_eq_false_iff, decide_eq_false_iff_not,
    beq_eq_false_iff_ne]
  omega

theorem outcome_bind_pure_eq_some {ε α β : Type} {r : StateT Cursor (Except ε) α} {f : α → β}
    {c c' : Cursor} {b : β} (h : outcome (r >>= fun a => pure (f a)) c = some (b, c')) :
    ∃ a, b = f a ∧ outcome r c = some (a, c') := by
  simp only [bind_pure_comp, outcome_map, Option.map_eq_some_iff, Prod.mk.injEq] at h
  obtain ⟨⟨a, _⟩, ha, rfl, rfl⟩ := h
  exact ⟨a, rfl, ha⟩

private theorem size_of_stringBody {size skip index : Nat} {rest read : List Char} {text : String}
    {c : Cursor}
    (h : Reader.stringBody size skip rest index read = .ok (text, c)) : c.size = size := by
  induction rest generalizing skip index read with
  | nil => cases skip <;> cases h
  | cons x rest ih =>
    cases skip with
    | succ skip => exact ih h
    | zero =>
      rw [Reader.stringBody] at h
      split_ifs at h
      · cases h
        rfl
      · split at h
        · cases h
        · exact ih h
      · exact ih h

private theorem size_of_string {c c' : Cursor} {text : String}
    (h : outcome Reader.string c = some (text, c')) :
    c'.size = c.size :=
  size_of_stringBody (toOption_eq_some_iff.1 h)

theorem scalar_cases {first : Char} {c c' : Cursor} {v : Value}
    (h : outcome (Reader.scalar first) c = some (v, c')) :
    IsScalar v ∧ Text.isSpace first = false ∧ ∀ text, v = .string text → c'.size = c.size := by
  unfold Reader.scalar at h
  split_ifs at h with hquote hnumber hn ht hf
  · obtain ⟨text, rfl, htext⟩ := outcome_bind_pure_eq_some h
    exact ⟨by simp [IsScalar], by rw [hquote]; decide, fun _ _ => size_of_string htext⟩
  · obtain ⟨n, rfl, _⟩ := outcome_bind_pure_eq_some h
    refine ⟨by simp [IsScalar], ?_, fun _ hv => by cases hv⟩
    rcases hnumber with rfl | hdigit
    · decide
    · exact isSpace_of_isDigit hdigit
  · obtain ⟨_, rfl, _⟩ := outcome_bind_pure_eq_some h
    exact ⟨by simp [IsScalar], by rw [hn]; decide, fun _ hv => by cases hv⟩
  · obtain ⟨_, rfl, _⟩ := outcome_bind_pure_eq_some h
    exact ⟨by simp [IsScalar], by rw [ht]; decide, fun _ hv => by cases hv⟩
  · obtain ⟨_, rfl, _⟩ := outcome_bind_pure_eq_some h
    exact ⟨by simp [IsScalar], by rw [hf]; decide, fun _ hv => by cases hv⟩
  · simp at h

theorem value_cases {depth : Nat} {c c' : Cursor} {v : Value}
    (h : outcome (Reader.value (depth + 1)) c = some (v, c')) :
    (c.skipSpace.rest.head? = some '[' ∧ ∃ items, v = .array items ∧
      outcome (Reader.items (Reader.value depth) (c.size + 1) true) (c.skipSpace.advance 1) =
        some (items, c')) ∨
    (c.skipSpace.rest.head? = some '\x7b' ∧ ∃ ms, v = .object ms ∧
      outcome (Reader.members (Reader.value depth) (c.size + 1) true) (c.skipSpace.advance 1) =
        some (ms, c')) ∨
    ∃ first, c.skipSpace.rest.head? = some first ∧ first ≠ '[' ∧ first ≠ '\x7b' ∧
      outcome (Reader.scalar first) c.skipSpace = some (v, c') := by
  rw [Reader.value, outcome_bind, outcome_peekToken, Option.bind_some] at h
  cases hfirst : c.skipSpace.rest.head? with
  | none => simp [hfirst] at h
  | some first =>
    simp only [hfirst] at h
    split_ifs at h with hopen hbrace
    · simp only [outcome_bind, outcome_advance, outcome_stepBound, Option.bind_some, bind_pure_comp,
        outcome_map, Option.map_eq_some_iff, Prod.mk.injEq] at h
      obtain ⟨⟨items, _⟩, hitems, rfl, rfl⟩ := h
      exact .inl ⟨by rw [hopen], items, rfl, hitems⟩
    · simp only [outcome_bind, outcome_advance, outcome_stepBound, Option.bind_some, bind_pure_comp,
        outcome_map, Option.map_eq_some_iff, Prod.mk.injEq] at h
      obtain ⟨⟨ms, _⟩, hms, rfl, rfl⟩ := h
      exact .inr (.inl ⟨by rw [hbrace], ms, rfl, hms⟩)
    · exact .inr (.inr ⟨first, rfl, hopen, hbrace, h⟩)

private theorem size_of_value {depth : Nat} {c c' : Cursor} {text : String}
    (h : outcome (Reader.value (depth + 1)) c = some (.string text, c')) : c'.size = c.size := by
  rcases value_cases h with ⟨_, items, hv, _⟩ | ⟨_, ms, hv, _⟩ | ⟨first, _, _, _, hscalar⟩
  · cases hv
  · cases hv
  · exact (scalar_cases hscalar).2.2 text rfl

private theorem tag_outcome {depth : Nat} {c c' : Cursor} {v : Value}
    (h : outcome (Reader.value (depth + 1)) c = some (v, c')) :
    outcome RootReader.tag c = (namedVariantOf unitVariants v).toOption.map fun variant => (variant, c') := by
  rw [RootReader.tag, outcome_bind, outcome_lift, outcome_peekToken, Option.bind_some]
  rcases value_cases h with ⟨hfirst, items, rfl, _⟩ | ⟨hfirst, ms, rfl, _⟩ |
    ⟨first, hfirst, hopen, hbrace, hscalar⟩
  · rw [hfirst]
    rfl
  · rw [hfirst]
    rfl
  · simp only [hfirst, outcome_bind, outcome_lift, hscalar, Option.bind_some]
    cases namedVariantOf unitVariants v <;> rfl

private def untagged (ms : List (String × Value)) : List (String × Value) := ms.filter (·.1 ≠ tagKey)

private theorem members_outcome {depth steps : Nat} {first : Bool} {c c' : Cursor}
    {ms : List (String × Value)} (hdepth : RootReader.innerDepth = depth + 1)
    (h : outcome (Reader.members (Reader.value (depth + 1)) steps first) c = some (ms, c'))
    (seen : Option (Variant SourceUnit)) :
    outcome (RootReader.members steps first seen) c =
      (chooseVariant (namedVariantOf unitVariants) seen ms).toOption.map fun v =>
        ((v, untagged ms), c') := by
  induction steps generalizing first c ms seen with
  | zero => simp [Reader.members] at h
  | succ steps ih =>
    rw [Reader.members, outcome_bind] at h
    obtain ⟨⟨key?, c₁⟩, hkey, hrest⟩ := Option.bind_eq_some_iff.1 h
    unfold RootReader.members
    rw [outcome_bind, outcome_lift, hkey, Option.bind_some]
    cases key? with
    | none =>
      simp only [outcome_pure, Option.some.injEq, Prod.mk.injEq] at hrest
      obtain ⟨rfl, rfl⟩ := hrest
      cases seen <;> rfl
    | some key =>
      simp only [outcome_bind, Option.bind_eq_some_iff, Prod.exists] at hrest
      obtain ⟨_, c₂, hcolon, v, c₃, hvalue, ms', c₄, hms, hpure⟩ := hrest
      simp only [outcome_pure, Option.some.injEq, Prod.mk.injEq] at hpure
      obtain ⟨rfl, rfl⟩ := hpure
      by_cases htag : key = tagKey
      · subst htag
        have huntagged : untagged ((tagKey, v) :: ms') = untagged ms' := by simp [untagged]
        rw [huntagged]
        cases seen with
        | some variant =>
          rw [chooseVariant_second]
          simp
        | none =>
          rw [chooseVariant_tag]
          simp only [if_true, outcome_bind, outcome_lift, hcolon, Option.bind_some, tag_outcome hvalue,
            toOption_bind]
          cases namedVariantOf unitVariants v with
          | error m => rfl
          | ok variant => exact ih hms (some variant)
      · have huntagged : untagged ((key, v) :: ms') = (key, v) :: untagged ms' := by simp [untagged, htag]
        rw [chooseVariant_skip htag, huntagged]
        simp only [if_neg htag, outcome_bind, outcome_lift, hcolon, Option.bind_some, hdepth, hvalue,
          ih hms seen]
        cases chooseVariant (namedVariantOf unitVariants) seen ms' <;> rfl

private theorem decodeMembers_untagged (layer : Layer) {fields : List Field}
    (htag : Place.find? tagKey fields = none) (slots : Slots fields) (ms : List (String × Value)) :
    decodeMembers layer fields slots (untagged ms) = decodeMembers layer fields slots ms := by
  induction ms generalizing slots with
  | nil => rfl
  | cons m ms ih =>
    obtain ⟨key, v⟩ := m
    by_cases hkey : key = tagKey
    · subst hkey
      have huntagged : untagged ((tagKey, v) :: ms) = untagged ms := by simp [untagged]
      rw [huntagged, ih, decodeMembers_skip htag]
    · have huntagged : untagged ((key, v) :: ms) = (key, v) :: untagged ms := by simp [untagged, hkey]
      rw [huntagged]
      cases hplace : Place.find? key fields with
      | none => rw [decodeMembers_skip hplace, decodeMembers_skip hplace, ih]
      | some place => simp only [decodeMembers_place hplace, ih]

private theorem unitFields_ne_tagKey : ∀ v ∈ unitVariants, ∀ f ∈ v.fields, f.name ≠ tagKey := by decide

private theorem exists_tag_of_chooseVariant {α : Type} {readTag : Value → Except Mismatch (Variant α)}
    {ms : List (String × Value)} {seen : Option (Variant α)} {v : Variant α}
    (h : chooseVariant readTag seen ms = .ok v) : seen = some v ∨ ∃ tag, readTag tag = .ok v := by
  induction ms generalizing seen with
  | nil =>
    cases seen with
    | none => cases h
    | some w => exact .inl (congrArg some (Except.ok.inj h))
  | cons m ms ih =>
    obtain ⟨key, tag⟩ := m
    by_cases hkey : key = tagKey
    · subst hkey
      cases seen with
      | some w =>
        rw [chooseVariant_second] at h
        cases h
      | none =>
        rw [chooseVariant_tag] at h
        cases htag : readTag tag with
        | error m =>
          rw [htag] at h
          cases h
        | ok w =>
          rw [htag] at h
          rcases ih h with hw | hother
          · exact .inr ⟨tag, by rw [htag, Option.some.inj hw]⟩
          · exact .inr hother
    · rw [chooseVariant_skip hkey] at h
      exact ih h

private theorem unitOfMembers_untagged {ms : List (String × Value)} {v : Variant SourceUnit}
    (h : chooseVariant (namedVariantOf unitVariants) none ms = .ok v) :
    unitOfMembers v (untagged ms) = unitOfMembers v ms := by
  rcases exists_tag_of_chooseVariant h with hseen | ⟨tag, htag⟩
  · cases hseen
  · have hfields := unitFields_ne_tagKey v (mem_of_namedVariantOf htag)
    rw [unitOfMembers, unitOfMembers, decodeMembers_untagged _ (Place.find?_eq_none hfields)]

private theorem items_outcome_succ {element : Reader Value} {steps : Nat} {first : Bool} {c : Cursor}
    {p : List Value × Cursor} (h : outcome (Reader.items element steps first) c = some p) :
    outcome (Reader.items element (steps + 1) first) c = some p := by
  induction steps generalizing first c p with
  | zero => simp [Reader.items] at h
  | succ steps ih =>
    rw [Reader.items, outcome_bind] at h ⊢
    obtain ⟨⟨more, c₁⟩, hnext, hrest⟩ := Option.bind_eq_some_iff.1 h
    rw [hnext, Option.bind_some]
    cases more with
    | false => exact hrest
    | true =>
      simp only [if_true, outcome_bind, Option.bind_eq_some_iff, Prod.exists] at hrest ⊢
      obtain ⟨v, c₂, hv, vs, c₃, hvs, hp⟩ := hrest
      exact ⟨v, c₂, hv, vs, c₃, ih hvs, hp⟩

private theorem innerDepth_eq : RootReader.innerDepth = 125 + 1 := rfl

private theorem depthLimit_eq : Json.depthLimit = 125 + 1 + 1 := rfl

theorem decodeUnit_of_isScalar {v : Value} (h : IsScalar v) : (decodeUnit v).toOption = none := by
  cases v with
  | array items => exact absurd rfl (h.1 items)
  | object ms => exact absurd rfl (h.2 ms)
  | null => rfl
  | bool b => rfl
  | number n => rfl
  | string s => rfl

private theorem eq_skipSpace_of_nextElement {c c' : Cursor}
    (h : outcome (Reader.nextElement true) c = some (true, c')) : c' = c.skipSpace := by
  rw [Reader.nextElement, outcome_bind, outcome_peekToken, Option.bind_some] at h
  dsimp only at h
  split at h
  · cases h
  · cases h
  · exact (Prod.mk.inj (Option.some.inj h)).2.symm

private theorem exists_string_of_namedVariantOf {α : Type} {variants : List (Variant α)} {tag : Value}
    {v : Variant α} (h : namedVariantOf variants tag = .ok v) : ∃ name, tag = .string name := by
  unfold namedVariantOf at h
  split at h
  · exact ⟨_, rfl⟩
  · cases h

private theorem elements_outcome {c c' : Cursor} {items : List Value}
    (h : outcome (Reader.items (Reader.value RootReader.innerDepth) (c.size + 1) true) c = some (items, c')) :
    outcome (do
      if ← RootReader.lift (Reader.nextElement true) then
        let v ← RootReader.tag
        let items ← RootReader.lift do
          Reader.items (Reader.value RootReader.innerDepth) (← Reader.stepBound) false
        RootReader.ofExcept (unitOfElements v items)
      else RootReader.mismatchHere (.missingField tagKey)) c =
      (decodeUnit (.array items)).toOption.map fun u => (u, c') := by
  rw [Reader.items, outcome_bind] at h
  obtain ⟨⟨more, c₁⟩, hnext, hrest⟩ := Option.bind_eq_some_iff.1 h
  rw [outcome_bind, outcome_lift, hnext, Option.bind_some]
  cases more with
  | false =>
    simp only [Bool.false_eq_true, if_false, outcome_pure, Option.some.injEq, Prod.mk.injEq] at hrest
    obtain ⟨rfl, rfl⟩ := hrest
    rfl
  | true =>
    simp only [if_true, outcome_bind, Option.bind_eq_some_iff, Prod.exists] at hrest
    obtain ⟨tag, c₂, htag, rest, c₃, hrest, hpure⟩ := hrest
    simp only [outcome_pure, Option.some.injEq, Prod.mk.injEq] at hpure
    obtain ⟨rfl, rfl⟩ := hpure
    rw [innerDepth_eq] at htag
    simp only [if_true, outcome_bind, tag_outcome htag, outcome_lift, outcome_stepBound, Option.bind_some]
    cases hv : namedVariantOf unitVariants tag with
    | error m => simp [decodeUnit, hv]
    | ok v =>
      -- the tag is a text, so the bound on the elements after it is the one for all of them
      have hsize : c₂.size = c.size := by
        obtain ⟨name, rfl⟩ := exists_string_of_namedVariantOf hv
        rw [size_of_value htag, eq_skipSpace_of_nextElement hnext, size_skipSpace]
      have hitems := items_outcome_succ hrest
      rw [← hsize] at hitems
      simp [decodeUnit, hv, hitems]

/-- The root of a text is decoded to what its value is decoded to. -/
theorem root_outcome {c c' : Cursor} {v : Value}
    (h : outcome (Reader.value Json.depthLimit) c = some (v, c')) :
    outcome RootReader.root c = (decodeUnit v).toOption.map fun u => (u, c') := by
  have h' := h
  rw [depthLimit_eq] at h'
  rw [RootReader.root, outcome_bind, outcome_lift, outcome_peekToken, Option.bind_some]
  rcases value_cases h' with ⟨hfirst, items, rfl, hitems⟩ | ⟨hfirst, ms, rfl, hms⟩ |
    ⟨first, hfirst, hopen, hbrace, hscalar⟩
  · simp only [hfirst]
    rw [outcome_bind, outcome_lift, outcome_advance, Option.bind_some]
    exact elements_outcome hitems
  · simp only [hfirst, outcome_bind, outcome_lift, outcome_advance, outcome_stepBound, Option.bind_some,
      size_advance, size_skipSpace]
    rw [members_outcome innerDepth_eq hms none]
    cases hv : chooseVariant (namedVariantOf unitVariants) none ms with
    | error m => simp [decodeUnit, hv]
    | ok w => simp [decodeUnit, hv, unitOfMembers_untagged hv]
  · rw [decodeUnit_of_isScalar (scalar_cases hscalar).1]
    split
    · rename_i heq
      exact absurd (Option.some.inj (hfirst.symm.trans heq)) hbrace
    · rename_i heq
      exact absurd (Option.some.inj (hfirst.symm.trans heq)) hopen
    · simp

private theorem isBlank_of_value {text : String} {c' : Cursor} {v : Value}
    (h : outcome (Reader.value Json.depthLimit) (.ofText text) = some (v, c')) :
    Text.isBlank text = false := by
  have hfirst : ∃ first, (Cursor.ofText text).skipSpace.rest.head? = some first ∧
      Text.isSpace first = false := by
    rw [depthLimit_eq] at h
    rcases value_cases h with ⟨hfirst, _⟩ | ⟨hfirst, _⟩ | ⟨first, hfirst, _, _, hscalar⟩
    · exact ⟨_, hfirst, by decide⟩
    · exact ⟨_, hfirst, by decide⟩
    · exact ⟨first, hfirst, (scalar_cases hscalar).2.1⟩
  obtain ⟨first, hhead, hspace⟩ := hfirst
  have hmem : first ∈ text.toList := (List.dropWhile_sublist _).subset (List.mem_of_head? hhead)
  rw [Bool.eq_false_iff]
  intro hblank
  rw [List.all_eq_true.1 hblank first hmem] at hspace
  cases hspace

theorem parse_toOption (text : String) :
    (Json.parse text).toOption =
      (outcome (do let v ← Reader.value Json.depthLimit; Reader.finish; return v) (.ofText text)).map
        Prod.fst := by
  rw [Json.parse, toOption_bind, outcome]
  cases StateT.run (do let v ← Reader.value Json.depthLimit; Reader.finish; return v : Reader Value)
    (.ofText text) <;> rfl

theorem load_toOption_of_not_blank {text : String} (h : Text.isBlank text = false) :
    (SourceUnit.load text).toOption = (outcome RootReader.whole (.ofText text)).map Prod.fst := by
  rw [SourceUnit.load, if_neg (by simp [h]), outcome]
  cases RootReader.whole.run (.ofText text) with
  | ok p => rfl
  | error e => cases e <;> rfl

/-- A text that holds a value is loaded as the value is decoded. -/
theorem load_toOption {text : String} {v : Value} (h : Json.parse text = .ok v) :
    (SourceUnit.load text).toOption = (decodeUnit v).toOption := by
  have hparse := parse_toOption text
  rw [h, toOption_ok] at hparse
  obtain ⟨⟨w, c'⟩, hrun, rfl⟩ := Option.map_eq_some_iff.1 hparse.symm
  simp only [outcome_bind, Option.bind_eq_some_iff, Prod.exists] at hrun
  obtain ⟨v, c₁, hvalue, _, c₂, hfinish, hpure⟩ := hrun
  simp only [outcome_pure, Option.some.injEq, Prod.mk.injEq] at hpure
  obtain ⟨rfl, rfl⟩ := hpure
  rw [load_toOption_of_not_blank (isBlank_of_value hvalue), RootReader.whole, outcome_bind,
    root_outcome hvalue]
  cases decodeUnit v with
  | error m => rfl
  | ok u => simp [hfinish]

end Schema

namespace SourceUnit

private theorem ok_iff_of_toOption {ε ε' α : Type} {x : Except ε α} {y : Except ε' α}
    (h : x.toOption = y.toOption) :
    (∀ a, x = .ok a ↔ y = .ok a) ∧ ((∃ e, x = .error e) ↔ ∃ e, y = .error e) := by
  cases x <;> cases y <;> simp_all [Except.toOption]

/-- Where no object has a key twice, a text is loaded exactly as its value is, and as any other text
that holds the members of the objects in another order. -/
theorem load_agrees_with_ofValue {text : String} {v : Json.Value} (hparse : Json.parse text = .ok v)
    (hkeys : v.DistinctKeys) :
    (∀ u, load text = .ok u ↔ ofValue v = .ok u) ∧
      ((∃ e, load text = .error e) ↔ ∃ e, ofValue v = .error e) ∧
      ∀ text' v', Json.parse text' = .ok v' → v.Reordered v' →
        ∀ u, load text = .ok u ↔ load text' = .ok u := by
  have hload : ∀ {t w}, Json.parse t = .ok w → w.DistinctKeys → (load t).toOption = (ofValue w).toOption := by
    intro t w ht hw
    rw [Schema.load_toOption ht, ofValue_toOption hw]
  obtain ⟨hok, herror⟩ := ok_iff_of_toOption (hload hparse hkeys)
  refine ⟨hok, herror, fun text' v' hparse' hreordered => ?_⟩
  obtain ⟨hkeys', hsorted⟩ := hreordered.sorted_eq hkeys
  have hsame : (load text).toOption = (load text').toOption := by
    rw [hload hparse hkeys, hload hparse' hkeys', ofValue, ofValue, hsorted]
  exact (ok_iff_of_toOption hsame).1

/-- A module of one name, with tags before the other members and after them. -/
def nameText : String :=
  "\x7b\"_t\":\"Module\",\"body\":[\x7b\"value\":\x7b\"id\":\"x\",\"_t\":\"Name\"\x7d,\"_t\":\"Expr\"\x7d]\x7d"

private def nameValue : Json.Value :=
  .object [("_t", .string "Module"), ("body", .array [.object
    [("value", .object [("id", .string "x"), ("_t", .string "Name")]), ("_t", .string "Expr")]])]

/-- The same module with the members of two of its objects in another order. -/
def reorderedNameText : String :=
  "\x7b\"body\":[\x7b\"_t\":\"Expr\",\"value\":\x7b\"id\":\"x\",\"_t\":\"Name\"\x7d\x7d],\"_t\":\"Module\"\x7d"

private def reorderedNameValue : Json.Value :=
  .object [("body", .array [.object
    [("_t", .string "Expr"), ("value", .object [("id", .string "x"), ("_t", .string "Name")])]]),
    ("_t", .string "Module")]

set_option maxRecDepth 10000 in
private theorem parse_nameText : Json.parse nameText = .ok nameValue := by cbv

set_option maxRecDepth 10000 in
private theorem parse_reorderedNameText : Json.parse reorderedNameText = .ok reorderedNameValue := by cbv

private theorem nameValue_distinctKeys : nameValue.DistinctKeys := by decide

private theorem nameValue_reordered : nameValue.Reordered reorderedNameValue :=
  .trans (.member [("_t", .string "Module")] [] "body" (.item [] [] (.members (.swap _ _ _))))
    (.members (.swap _ _ _))

theorem nameText_loads :
    load nameText = .ok (.module [.mk (.expr (.mk (.name "x") none)) none]) ∧
      load reorderedNameText = .ok (.module [.mk (.expr (.mk (.name "x") none)) none]) := by
  obtain ⟨hvalue, _, hreordered⟩ := load_agrees_with_ofValue parse_nameText nameValue_distinctKeys
  have hload := (hvalue (.module [.mk (.expr (.mk (.name "x") none)) none])).2 rfl
  exact ⟨hload, (hreordered _ _ parse_reorderedNameText nameValue_reordered _).1 hload⟩

end SourceUnit

end RegionIR
