import Mathlib
import RegionIR.Schema.Decode
/-!
# Records by lookup

Members are visited in the order in which they stand, and each fills the slot of its field. Where no
key occurs twice the outcome does not depend on that order: each field is what the member of its name
spells, or its fallback where there is no such member. Outcomes are compared as options, since the
order does decide which of several mismatches is reported.
-/
namespace RegionIR

namespace Json

def UniqueKeys (ms : List (String × Value)) : Prop := (ms.map Prod.fst).Nodup

instance (ms : List (String × Value)) : Decidable (UniqueKeys ms) :=
  inferInstanceAs (Decidable (List.Nodup _))

theorem UniqueKeys.tail {m : String × Value} {ms : List (String × Value)} (h : UniqueKeys (m :: ms)) :
    UniqueKeys ms :=
  (List.nodup_cons.1 h).2

theorem UniqueKeys.lookup_tail {key : String} {v : Value} {ms : List (String × Value)}
    (h : UniqueKeys ((key, v) :: ms)) : ms.lookup key = none := by
  rw [List.lookup_eq_none_iff]
  intro m hm
  have hne : key ≠ m.1 := fun heq => (List.nodup_cons.1 h).1 (by simp [heq]; exact ⟨m.2, hm⟩)
  simpa using hne

end Json

namespace Schema

open Json (Value UniqueKeys)

@[simp] theorem toOption_bind {ε α β : Type} (x : Except ε α) (f : α → Except ε β) :
    (x >>= f).toOption = x.toOption.bind fun a => (f a).toOption := by
  cases x <;> rfl

@[simp] theorem toOption_map {ε α β : Type} (f : α → β) (x : Except ε α) :
    (f <$> x).toOption = x.toOption.map f := by
  cases x <;> rfl

@[simp] theorem toOption_ok {ε α : Type} (a : α) : (.ok a : Except ε α).toOption = some a := rfl

@[simp] theorem toOption_error {ε α : Type} (e : ε) : (.error e : Except ε α).toOption = none := rfl

theorem toOption_eq_some_iff {ε α : Type} {x : Except ε α} {a : α} : x.toOption = some a ↔ x = .ok a := by
  cases x <;> simp [Except.toOption]

def UniqueNames (fields : List Field) : Prop := (fields.map Field.name).Nodup

namespace Place

theorem find?_eq_none {name : String} {fields : List Field} (h : ∀ f ∈ fields, f.name ≠ name) :
    find? name fields = none := by
  induction fields with
  | nil => rfl
  | cons f fs ih => simp [find?, h f (by simp), ih fun g hg => h g (by simp [hg])]

end Place

namespace Field

/-- The slot of one field after the members have been visited. -/
def fill (layer : Layer) (f : Field) (x : Option f.shape.Carrier) :
    List (String × Value) → Option (Option f.shape.Carrier)
  | [] => some x
  | (key, v) :: rest =>
    if f.name = key then
      if x.isSome then none
      else (decode layer f.shape v).toOption.bind fun a => f.fill layer (some a) rest
    else f.fill layer x rest

/-- The value of one field: what its member spells, or the fallback. -/
def read? (layer : Layer) (f : Field) (ms : List (String × Value)) : Option f.shape.Carrier :=
  match ms.lookup f.name with
  | some v => (decode layer f.shape v).toOption
  | none => f.fallback

variable {layer : Layer} {f : Field}

theorem read?_of_lookup {ms : List (String × Value)} {v : Value} (h : ms.lookup f.name = some v) :
    f.read? layer ms = (decode layer f.shape v).toOption := by
  rw [read?, h]

theorem read?_of_lookup_eq_none {ms : List (String × Value)} (h : ms.lookup f.name = none) :
    f.read? layer ms = f.fallback := by
  rw [read?, h]

private theorem fill_of_lookup_eq_none {x : Option f.shape.Carrier} {ms : List (String × Value)}
    (h : ms.lookup f.name = none) : f.fill layer x ms = some x := by
  induction ms with
  | nil => rfl
  | cons m ms ih =>
    obtain ⟨key, v⟩ := m
    by_cases hkey : f.name = key
    · simp [hkey] at h
    · have hkey' : (f.name == key) = false := by simpa using hkey
      rw [List.lookup_cons, hkey'] at h
      rw [fill, if_neg hkey, ih h]

private theorem fill_none {ms : List (String × Value)} (h : UniqueKeys ms) :
    ((f.fill layer none ms).bind fun x => x <|> f.fallback) = f.read? layer ms := by
  induction ms with
  | nil => simp [fill, read?]
  | cons m ms ih =>
    obtain ⟨key, v⟩ := m
    by_cases hkey : f.name = key
    · subst hkey
      have hlookup : ((f.name, v) :: ms).lookup f.name = some v := by simp
      rw [fill, if_pos rfl, if_neg (by simp), read?_of_lookup hlookup]
      cases (decode layer f.shape v).toOption with
      | none => rfl
      | some a => simp [fill_of_lookup_eq_none h.lookup_tail]
    · have hkey' : (f.name == key) = false := by simpa using hkey
      rw [fill, if_neg hkey, ih h.tail, read?, read?, List.lookup_cons, hkey']

end Field

def Record.read? (layer : Layer) : (fields : List Field) → List (String × Value) → Option (Record fields)
  | [], _ => some ()
  | f :: fs, ms => (f.read? layer ms).bind fun a => (Record.read? layer fs ms).map fun r => (a, r)

def Record.fill? (layer : Layer) : (fields : List Field) → List (String × Value) → Option (Record fields)
  | [], _ => some ()
  | f :: fs, ms =>
    ((f.fill layer none ms).bind fun x => x <|> f.fallback).bind fun a =>
      (Record.fill? layer fs ms).map fun r => (a, r)

section Members

variable {layer : Layer} {f : Field} {fs : List Field} {key : String} {v : Value}
  {ms : List (String × Value)}

private def Slots.cons (x : Option f.shape.Carrier) (slots : Slots fs) : Slots (f :: fs) := (x, slots)

private theorem Slots.close_cons (x : Option f.shape.Carrier) (slots : Slots fs) :
    (slots.cons x).close.toOption =
      (x <|> f.fallback).bind fun a => slots.close.toOption.map fun r => ((a, r) : Record (f :: fs)) := by
  rw [Slots.cons, close]
  cases x <|> f.fallback with
  | none => rfl
  | some a => cases slots.close <;> rfl

theorem decodeMembers_skip {fields : List Field} {slots : Slots fields}
    (h : Place.find? key fields = none) :
    decodeMembers layer fields slots ((key, v) :: ms) = decodeMembers layer fields slots ms := by
  rw [decodeMembers, h]

theorem decodeMembers_place {fields : List Field} {slots : Slots fields} {place : Place fields}
    (h : Place.find? key fields = some place) :
    decodeMembers layer fields slots ((key, v) :: ms) =
      if (slots.get place).isSome then .error (.duplicateField key)
      else decode layer place.shape v >>= fun a => decodeMembers layer fields (slots.set place a) ms := by
  rw [decodeMembers, h]

private theorem decodeMembers_cons (hf : ∀ g ∈ fs, g.name ≠ f.name) (x : Option f.shape.Carrier)
    (slots : Slots fs) (ms : List (String × Value)) :
    (decodeMembers layer (f :: fs) (slots.cons x) ms).toOption =
      (f.fill layer x ms).bind fun y =>
        (decodeMembers layer fs slots ms).toOption.map fun r => r.cons y := by
  induction ms generalizing x slots with
  | nil => rfl
  | cons m ms ih =>
    obtain ⟨key, v⟩ := m
    by_cases hkey : f.name = key
    · subst hkey
      have hhere : Place.find? f.name (f :: fs) = some .here := by simp [Place.find?]
      rw [decodeMembers_place hhere, decodeMembers_skip (Place.find?_eq_none hf), Field.fill, if_pos rfl]
      cases x with
      | some a => rfl
      | none =>
        change (decode layer f.shape v >>= fun a =>
          decodeMembers layer (f :: fs) (slots.cons (some a)) ms).toOption = _
        simp [ih, Option.bind_assoc]
    · have hskip : Place.find? key (f :: fs) = (Place.find? key fs).map .there := by
        simp [Place.find?, hkey]
      rw [Field.fill, if_neg hkey]
      cases hplace : Place.find? key fs with
      | none =>
        rw [hplace] at hskip
        rw [decodeMembers_skip hskip, decodeMembers_skip hplace, ih]
      | some place =>
        rw [hplace] at hskip
        rw [decodeMembers_place hskip, decodeMembers_place hplace]
        change (if (slots.get place).isSome then .error (.duplicateField key)
          else decode layer place.shape v >>= fun a =>
            decodeMembers layer (f :: fs) ((slots.set place a).cons x) ms : Except Mismatch _).toOption = _
        split
        · cases f.fill layer x ms <;> rfl
        · simp only [toOption_bind, ih]
          cases f.fill layer x ms with
          | none => simp
          | some y => simp [Option.map_bind]

theorem decodeMembers_close_fill {fields : List Field} (hfields : UniqueNames fields)
    (ms : List (String × Value)) :
    (decodeMembers layer fields (.empty fields) ms >>= Slots.close).toOption =
      Record.fill? layer fields ms := by
  induction fields with
  | nil =>
    have hskip : ∀ l, decodeMembers layer [] (.empty []) l = .ok () := by
      intro l
      induction l with
      | nil => rfl
      | cons m l ih => exact (decodeMembers_skip rfl).trans ih
    rw [hskip]
    rfl
  | cons f fs ih =>
    have hnames := List.nodup_cons.1 hfields
    have hf : ∀ g ∈ fs, g.name ≠ f.name := fun g hg heq => hnames.1 (List.mem_map.2 ⟨g, hg, heq⟩)
    rw [toOption_bind, Record.fill?, ← ih hnames.2, toOption_bind]
    change ((decodeMembers layer (f :: fs) ((Slots.empty fs).cons none) ms).toOption.bind fun r =>
      r.close.toOption) = _
    rw [decodeMembers_cons hf]
    cases f.fill layer none ms with
    | none => rfl
    | some x =>
      cases (decodeMembers layer fs (.empty fs) ms).toOption with
      | none =>
        cases x with
        | none => cases f.fallback <;> rfl
        | some a => rfl
      | some slots => exact Slots.close_cons x slots

/-- Where no key occurs twice, a record holds what each field's member spells. -/
theorem Record.fill?_eq_read? (hkeys : UniqueKeys ms) (fields : List Field) :
    Record.fill? layer fields ms = Record.read? layer fields ms := by
  induction fields with
  | nil => rfl
  | cons f fs ih => rw [Record.fill?, Record.read?, Field.fill_none hkeys, ih]

section Tags

variable {α : Type} {readTag : Value → Except Mismatch (Variant α)}

theorem chooseVariant_skip (h : key ≠ tagKey) (seen : Option (Variant α)) :
    chooseVariant readTag seen ((key, v) :: ms) = chooseVariant readTag seen ms := by
  cases seen <;> rw [chooseVariant, if_neg h]

theorem chooseVariant_tag :
    chooseVariant readTag none ((tagKey, v) :: ms) =
      readTag v >>= fun w => chooseVariant readTag (some w) ms := by
  rw [chooseVariant, if_pos rfl]

theorem chooseVariant_second (w : Variant α) :
    chooseVariant readTag (some w) ((tagKey, v) :: ms) = .error (.duplicateField tagKey) := by
  rw [chooseVariant, if_pos rfl]

private theorem chooseVariant_seen (w : Variant α) (h : ms.lookup tagKey = none) :
    chooseVariant readTag (some w) ms = .ok w := by
  induction ms with
  | nil => rfl
  | cons m ms ih =>
    obtain ⟨key, v⟩ := m
    by_cases hkey : tagKey = key
    · simp [hkey] at h
    · have hkey' : (tagKey == key) = false := by simpa using hkey
      rw [List.lookup_cons, hkey'] at h
      rw [chooseVariant_skip (Ne.symm hkey), ih h]

/-- A tag is read where it stands, so a single one is read wherever it stands. -/
theorem chooseVariant_none (hkeys : UniqueKeys ms) :
    (chooseVariant readTag none ms).toOption =
      (ms.lookup tagKey).bind fun tag => (readTag tag).toOption := by
  induction ms with
  | nil => rfl
  | cons m ms ih =>
    obtain ⟨key, v⟩ := m
    by_cases hkey : tagKey = key
    · subst hkey
      rw [chooseVariant_tag]
      simp [chooseVariant_seen _ hkeys.lookup_tail]
    · have hkey' : (tagKey == key) = false := by simpa using hkey
      rw [chooseVariant_skip (Ne.symm hkey), ih hkeys.tail, List.lookup_cons, hkey']

end Tags

end Members

namespace MappingForm

/-- No record of a form names a field twice. -/
def Proper {α : Type} : MappingForm α → Prop
  | refused _ => True
  | record fields _ => UniqueNames fields
  | choice _ variants shared _ => (∀ v ∈ variants, UniqueNames v.fields) ∧ UniqueNames shared

/-- What a form makes of an object whose members fill its fields one after the other. -/
def fill? {α : Type} (layer : Layer) (ms : List (String × Value)) : MappingForm α → Option α
  | refused _ => none
  | record fields build => (Record.fill? layer fields ms).map build
  | choice _ variants shared build =>
    (chooseVariant (variantOf variants) none ms).toOption.bind fun v =>
      (Record.fill? .inner v.fields ms).bind fun own =>
        (Record.fill? .inner shared ms).map fun common => build (v.build own) common

/-- What a form makes of an object whose members are looked up by key. -/
def read? {α : Type} (layer : Layer) (ms : List (String × Value)) : MappingForm α → Option α
  | refused _ => none
  | record fields build => (Record.read? layer fields ms).map build
  | choice _ variants shared build =>
    ((ms.lookup tagKey).bind fun tag => (variantOf variants tag).toOption).bind fun v =>
      (Record.read? .inner v.fields ms).bind fun own =>
        (Record.read? .inner shared ms).map fun common => build (v.build own) common

private theorem fill?_eq_read? {α : Type} {layer : Layer} {ms : List (String × Value)}
    (hkeys : UniqueKeys ms) (form : MappingForm α) : form.fill? layer ms = form.read? layer ms := by
  cases form with
  | refused expected => rfl
  | record fields build => rw [fill?, read?, Record.fill?_eq_read? hkeys]
  | choice β variants shared build =>
    simp only [fill?, read?, chooseVariant_none hkeys, Record.fill?_eq_read? hkeys]

theorem Proper.map {α β : Type} {form : MappingForm α} (h : form.Proper) (f : α → β) :
    (form.map f).Proper := by
  cases form <;> exact h

end MappingForm

instance (fields : List Field) : Decidable (UniqueNames fields) :=
  inferInstanceAs (Decidable (List.Nodup _))

theorem Shape.mappingForm_proper (s : Shape) : s.mappingForm.Proper := by
  induction s with
  | optional s ih => exact ih.map some
  | expr => exact ⟨by decide, by decide⟩
  | stmt => exact ⟨by decide, by decide⟩
  | param => exact (by decide : UniqueNames paramFields)
  | params => exact (by decide : UniqueNames paramsFields)
  | keyword => exact (by decide : UniqueNames keywordFields)
  | boolOperator => exact ⟨by decide, by decide⟩
  | binaryOperator => exact ⟨by decide, by decide⟩
  | cmpOperator => exact ⟨by decide, by decide⟩
  | unaryOperator => exact ⟨by decide, by decide⟩
  | text => trivial
  | byte => trivial
  | position => trivial
  | literal => trivial
  | list s _ => trivial

theorem mem_of_variantNamed {α : Type} {variants : List (Variant α)} {name : String} {v : Variant α}
    (h : variantNamed variants name = .ok v) : v ∈ variants ∧ v.name = name := by
  unfold variantNamed at h
  split at h
  · rename_i w hfind
    cases h
    exact ⟨List.mem_of_find?_eq_some hfind, by simpa using List.find?_some hfind⟩
  · cases h

theorem mem_of_variantOf {α : Type} {variants : List (Variant α)} {tag : Value} {v : Variant α}
    (h : variantOf variants tag = .ok v) : v ∈ variants := by
  unfold variantOf at h
  split at h
  · exact (mem_of_variantNamed h).1
  · split at h
    · cases h
    · split at h
      · rename_i w hget
        cases h
        exact List.mem_of_getElem? hget
      · cases h
  · cases h

theorem mem_of_chooseVariant {α : Type} {variants : List (Variant α)}
    {readTag : Value → Except Mismatch (Variant α)} (hread : ∀ tag v, readTag tag = .ok v → v ∈ variants)
    {seen : Option (Variant α)} (hseen : ∀ v ∈ seen, v ∈ variants) {ms : List (String × Value)}
    {w : Variant α} (h : chooseVariant readTag seen ms = .ok w) : w ∈ variants := by
  induction ms generalizing seen with
  | nil =>
    cases seen with
    | none => cases h
    | some v =>
      cases h
      exact hseen _ rfl
  | cons m ms ih =>
    obtain ⟨k, u⟩ := m
    by_cases hk : k = tagKey
    · subst hk
      cases seen with
      | some v =>
        rw [chooseVariant_second] at h
        cases h
      | none =>
        rw [chooseVariant_tag] at h
        cases htag : readTag u with
        | error m =>
          rw [htag] at h
          cases h
        | ok v =>
          rw [htag] at h
          refine ih (fun v' hv' => ?_) h
          cases hv'
          exact hread u v htag
    · rw [chooseVariant_skip hk] at h
      exact ih hseen h

theorem decode_object_fill (layer : Layer) (s : Shape) (ms : List (String × Value)) :
    (decode layer s (.object ms)).toOption = s.mappingForm.fill? layer ms := by
  have hproper := s.mappingForm_proper
  rw [decode]
  cases hform : s.mappingForm with
  | refused expected => rfl
  | record fields build =>
    rw [hform] at hproper
    rw [MappingForm.fill?, ← decodeMembers_close_fill hproper]
    simp [Option.map_bind]
  | choice β variants shared build =>
    rw [hform] at hproper
    rw [MappingForm.fill?, ← decodeMembers_close_fill hproper.2]
    cases hv : chooseVariant (variantOf variants) none ms with
    | error m => simp [hv]
    | ok v =>
      have hmem : v ∈ variants := mem_of_chooseVariant (fun _ _ => mem_of_variantOf) (by simp) hv
      rw [toOption_ok, Option.bind_some, ← decodeMembers_close_fill (hproper.1 v hmem)]
      simp [hv, Option.bind_assoc, Option.map_bind]

theorem decode_object (layer : Layer) (s : Shape) {ms : List (String × Value)} (hkeys : UniqueKeys ms) :
    (decode layer s (.object ms)).toOption = s.mappingForm.read? layer ms := by
  rw [decode_object_fill, MappingForm.fill?_eq_read? hkeys]

end Schema

end RegionIR
