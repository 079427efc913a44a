import RegionIR.Proofs.Records
import RegionIR.Schema.Load
/-!
# The order of members

Where no object has a key twice, sorting the members of every object changes nothing that a decoder
makes of a value, and neither does any other order.
-/
namespace RegionIR

namespace Json

namespace UniqueKeys

variable {ms ms' : List (String × Value)} {key : String} {v : Value}

theorem lookup_eq_some_iff (h : UniqueKeys ms) : ms.lookup key = some v ↔ (key, v) ∈ ms := by
  induction ms with
  | nil => simp
  | cons m ms ih =>
    obtain ⟨k, w⟩ := m
    by_cases hk : key = k
    · subst hk
      have hnone := h.lookup_tail
      rw [List.lookup_eq_none_iff] at hnone
      have hmem : (key, v) ∉ ms := fun hv => by simpa using hnone _ hv
      simp [hmem, eq_comm]
    · have hk' : (key == k) = false := by simpa using hk
      rw [List.lookup_cons, hk', List.mem_cons]
      simp [hk, ih h.tail]

private theorem perm (h : UniqueKeys ms) (hp : ms.Perm ms') : UniqueKeys ms' :=
  (hp.map Prod.fst).nodup h

private theorem lookup_perm (h : UniqueKeys ms) (hp : ms.Perm ms') (key : String) :
    ms.lookup key = ms'.lookup key := by
  apply Option.ext
  intro v
  rw [h.lookup_eq_some_iff, (h.perm hp).lookup_eq_some_iff, hp.mem_iff]

end UniqueKeys

private theorem insertMember_comm {k k' : String} (h : k ≠ k') (v v' : Value)
    (ms : List (String × Value)) :
    insertMember k v (insertMember k' v' ms) = insertMember k' v' (insertMember k v ms) := by
  induction ms with
  | nil => grind [insertMember]
  | cons m ms ih =>
    obtain ⟨x, w⟩ := m
    grind [insertMember]

private theorem insertMember_perm {key : String} (v : Value) {ms : List (String × Value)}
    (h : key ∉ ms.map Prod.fst) : (insertMember key v ms).Perm ((key, v) :: ms) := by
  induction ms with
  | nil => exact .refl _
  | cons m ms ih =>
    obtain ⟨k, w⟩ := m
    rw [List.map_cons, List.mem_cons, not_or] at h
    rw [insertMember]
    split
    · exact .refl _
    · rw [if_neg h.1]
      exact ((ih h.2).cons _).trans (.swap _ _ _)

/-- Sorting only moves members, where no key occurs twice. -/
theorem sortMembers_perm {ms : List (String × Value)} (h : UniqueKeys ms) : (sortMembers ms).Perm ms := by
  have hfold : ∀ (acc : List (String × Value)), UniqueKeys (ms ++ acc) →
      (ms.foldl (fun sorted m => insertMember m.1 m.2 sorted) acc).Perm (ms ++ acc) := by
    clear h
    induction ms with
    | nil => exact fun acc _ => .refl _
    | cons m ms ih =>
      intro acc h
      have hfresh : m.1 ∉ acc.map Prod.fst := by
        have hnot := (List.nodup_cons.1 h).1
        rw [List.append_eq, List.map_append, List.mem_append, not_or] at hnot
        exact hnot.2
      have hmoved : (ms ++ insertMember m.1 m.2 acc).Perm (m :: ms ++ acc) :=
        ((insertMember_perm m.2 hfresh).append_left ms).trans List.perm_middle
      exact (ih _ (h.perm hmoved.symm)).trans hmoved
  simpa [sortMembers] using hfold [] (by simpa using h)

private theorem sortMembers_eq_of_perm {ms ms' : List (String × Value)} (h : UniqueKeys ms)
    (hp : ms.Perm ms') :
    sortMembers ms = sortMembers ms' := by
  refine hp.foldl_eq' (fun m hm n hn l => ?_) []
  by_cases hkey : m.1 = n.1
  · have hm' : ms.lookup m.1 = some m.2 := h.lookup_eq_some_iff.2 hm
    have hn' : ms.lookup m.1 = some n.2 := h.lookup_eq_some_iff.2 (by rw [hkey]; exact hn)
    have hval : m.2 = n.2 := Option.some.inj (hm'.symm.trans hn')
    rw [hkey, hval]
  · exact insertMember_comm (Ne.symm hkey) _ _ _

namespace Value

/-- No object in the value has a key twice. -/
inductive DistinctKeys : Value → Prop
  | null : DistinctKeys null
  | bool (b : Bool) : DistinctKeys (bool b)
  | number (n : Number) : DistinctKeys (number n)
  | string (s : String) : DistinctKeys (string s)
  | array {items : List Value} (each : ∀ v ∈ items, DistinctKeys v) : DistinctKeys (array items)
  | object {ms : List (String × Value)} (keys : UniqueKeys ms) (each : ∀ m ∈ ms, DistinctKeys m.2) :
      DistinctKeys (object ms)

mutual

def hasDistinctKeys : Value → Bool
  | .array items => hasDistinctKeysItems items
  | .object ms => decide (UniqueKeys ms) && hasDistinctKeysMembers ms
  | _ => true

def hasDistinctKeysItems : List Value → Bool
  | [] => true
  | v :: rest => hasDistinctKeys v && hasDistinctKeysItems rest

def hasDistinctKeysMembers : List (String × Value) → Bool
  | [] => true
  | (_, v) :: rest => hasDistinctKeys v && hasDistinctKeysMembers rest

end

private theorem hasDistinctKeysItems_eq (items : List Value) :
    hasDistinctKeysItems items = items.all hasDistinctKeys := by
  induction items with
  | nil => rfl
  | cons v items ih => rw [hasDistinctKeysItems, ih, List.all_cons]

private theorem hasDistinctKeysMembers_eq (ms : List (String × Value)) :
    hasDistinctKeysMembers ms = ms.all fun m => m.2.hasDistinctKeys := by
  induction ms with
  | nil => rfl
  | cons m ms ih => rw [hasDistinctKeysMembers, ih, List.all_cons]

private theorem DistinctKeys.check {v : Value} (h : v.DistinctKeys) : v.hasDistinctKeys = true := by
  induction h with
  | array each ih => simpa [hasDistinctKeys, hasDistinctKeysItems_eq] using ih
  | object keys each ih =>
    rw [hasDistinctKeys, hasDistinctKeysMembers_eq, decide_eq_true keys, Bool.true_and, List.all_eq_true]
    exact ih
  | null => rfl
  | bool b => rfl
  | number n => rfl
  | string s => rfl

mutual

theorem distinctKeys_of_check : (v : Value) → v.hasDistinctKeys = true → v.DistinctKeys
  | .null, _ => .null
  | .bool b, _ => .bool b
  | .number n, _ => .number n
  | .string s, _ => .string s
  | .array items, h => .array (distinctKeys_of_checkItems items h)
  | .object ms, h => by
    obtain ⟨hkeys, hms⟩ := Bool.and_eq_true_iff.1 h
    exact .object (of_decide_eq_true hkeys) (distinctKeys_of_checkMembers ms hms)

theorem distinctKeys_of_checkItems : (items : List Value) → hasDistinctKeysItems items = true →
    ∀ v ∈ items, v.DistinctKeys
  | [], _ => List.forall_mem_nil _
  | v :: rest, h => by
    obtain ⟨hv, hrest⟩ := Bool.and_eq_true_iff.1 h
    exact List.forall_mem_cons.2 ⟨distinctKeys_of_check v hv, distinctKeys_of_checkItems rest hrest⟩

theorem distinctKeys_of_checkMembers : (ms : List (String × Value)) → hasDistinctKeysMembers ms = true →
    ∀ m ∈ ms, m.2.DistinctKeys
  | [], _ => List.forall_mem_nil _
  | (_, v) :: rest, h => by
    obtain ⟨hv, hrest⟩ := Bool.and_eq_true_iff.1 h
    exact List.forall_mem_cons.2 ⟨distinctKeys_of_check v hv, distinctKeys_of_checkMembers rest hrest⟩

end

instance (v : Value) : Decidable v.DistinctKeys :=
  decidable_of_iff (v.hasDistinctKeys = true) ⟨distinctKeys_of_check v, DistinctKeys.check⟩

/-- The same value with the members of its objects, at any depth, in another order. -/
inductive Reordered : Value → Value → Prop
  | refl (v : Value) : Reordered v v
  | trans {u v w : Value} (left : Reordered u v) (right : Reordered v w) : Reordered u w
  | members {ms ms' : List (String × Value)} (perm : ms.Perm ms') : Reordered (object ms) (object ms')
  | item {v w : Value} (before after : List Value) (inner : Reordered v w) :
      Reordered (array (before ++ v :: after)) (array (before ++ w :: after))
  | member {v w : Value} (before after : List (String × Value)) (key : String) (inner : Reordered v w) :
      Reordered (object (before ++ (key, v) :: after)) (object (before ++ (key, w) :: after))

private theorem sortedItems_eq (items : List Value) : sortedItems items = items.map sorted := by
  induction items with
  | nil => rfl
  | cons v items ih => rw [sortedItems, ih, List.map_cons]

private def sortedMember (m : String × Value) : String × Value := (m.1, m.2.sorted)

private theorem sortedMembers_eq (ms : List (String × Value)) :
    sortedMembers ms = ms.map sortedMember := by
  induction ms with
  | nil => rfl
  | cons m ms ih =>
    obtain ⟨k, v⟩ := m
    rw [sortedMembers, ih, List.map_cons, sortedMember]

private theorem uniqueKeys_sortedMember {ms : List (String × Value)} (h : UniqueKeys ms) :
    UniqueKeys (ms.map sortedMember) := by
  have hfst : Prod.fst ∘ sortedMember = Prod.fst := rfl
  rw [UniqueKeys, List.map_map, hfst]
  exact h

theorem Reordered.sorted_eq {v w : Value} (h : Reordered v w) (hv : v.DistinctKeys) :
    w.DistinctKeys ∧ v.sorted = w.sorted := by
  induction h with
  | refl v => exact ⟨hv, rfl⟩
  | trans _ _ ihl ihr =>
    obtain ⟨hmid, hleft⟩ := ihl hv
    obtain ⟨hw, hright⟩ := ihr hmid
    exact ⟨hw, hleft.trans hright⟩
  | @members ms ms' perm =>
    cases hv with
    | object keys each =>
      refine ⟨.object (keys.perm perm) fun m hm => each m (perm.mem_iff.2 hm), ?_⟩
      rw [sorted, sorted, sortedMembers_eq, sortedMembers_eq,
        sortMembers_eq_of_perm (uniqueKeys_sortedMember keys) (perm.map _)]
  | @item v w before after _ ih =>
    cases hv with
    | array each =>
      obtain ⟨hw, hsorted⟩ := ih (each v (by simp))
      refine ⟨.array fun u hu => ?_, ?_⟩
      · rcases List.mem_append.1 hu with hu | hu
        · exact each u (by simp [hu])
        · rcases List.mem_cons.1 hu with rfl | hu
          · exact hw
          · exact each u (by simp [hu])
      · rw [sorted, sorted, sortedItems_eq, sortedItems_eq]
        simp [hsorted]
  | @member v w before after key _ ih =>
    cases hv with
    | object keys each =>
      obtain ⟨hw, hsorted⟩ := ih (each (key, v) (by simp))
      refine ⟨.object (by simpa [UniqueKeys] using keys) fun m hm => ?_, ?_⟩
      · rcases List.mem_append.1 hm with hm | hm
        · exact each m (by simp [hm])
        · rcases List.mem_cons.1 hm with rfl | hm
          · exact hw
          · exact each m (by simp [hm])
      · rw [sorted, sorted, sortedMembers_eq, sortedMembers_eq]
        simp [sortedMember, hsorted]

private theorem lookup_sortedMember (ms : List (String × Value)) (key : String) :
    (ms.map sortedMember).lookup key = (ms.lookup key).map sorted := by
  induction ms with
  | nil => rfl
  | cons m ms ih =>
    obtain ⟨k, v⟩ := m
    rw [List.map_cons, sortedMember, List.lookup_cons, List.lookup_cons, ih]
    cases key == k <;> rfl

private theorem uniqueKeys_sorted {ms : List (String × Value)} (h : UniqueKeys ms) :
    UniqueKeys (sortMembers (ms.map sortedMember)) :=
  (uniqueKeys_sortedMember h).perm (sortMembers_perm (uniqueKeys_sortedMember h)).symm

private theorem lookup_sorted {ms : List (String × Value)} (h : UniqueKeys ms) (key : String) :
    (sortMembers (ms.map sortedMember)).lookup key = (ms.lookup key).map sorted := by
  rw [(uniqueKeys_sorted h).lookup_perm (sortMembers_perm (uniqueKeys_sortedMember h)),
    lookup_sortedMember]

end Value

end Json

namespace Schema

open Json (Value UniqueKeys sortMembers)
open Json.Value (sorted sortedMember lookup_sorted uniqueKeys_sorted)

/-- Values of which every shape makes the same. -/
def ReadAlike (v w : Value) : Prop :=
  ∀ layer s, (decode layer s v).toOption = (decode layer s w).toOption

section Sorted

variable {items : List Value} {ms : List (String × Value)}

private theorem decodeItems_sorted (h : ∀ v ∈ items, ReadAlike v.sorted v) (layer : Layer) (s : Shape) :
    (decodeItems layer s (items.map sorted)).toOption = (decodeItems layer s items).toOption := by
  induction items with
  | nil => rfl
  | cons v items ih =>
    rw [List.map_cons, decodeItems, decodeItems]
    simp [h v (by simp) layer s, ih fun u hu => h u (by simp [hu])]

theorem decodeElements_cons (layer : Layer) (expected : Expected) (index : Nat) (f : Field)
    (fs : List Field) (v : Value) (items : List Value) :
    (decodeElements layer expected index (f :: fs) (v :: items)).toOption =
      (decode layer f.shape v).toOption.bind fun a =>
        (decodeElements layer expected (index + 1) fs items).toOption.map fun r =>
          ((a, r) : Record (f :: fs)) := by
  rw [decodeElements]
  cases decode layer f.shape v with
  | error m => rfl
  | ok a => cases decodeElements layer expected (index + 1) fs items <;> rfl

private theorem decodeElements_sorted (h : ∀ v ∈ items, ReadAlike v.sorted v) (layer : Layer)
    (expected : Expected) (index : Nat) (fields : List Field) :
    (decodeElements layer expected index fields (items.map sorted)).toOption =
      (decodeElements layer expected index fields items).toOption := by
  induction items generalizing index fields with
  | nil => rfl
  | cons v items ih =>
    cases fields with
    | nil => rfl
    | cons f fs =>
      rw [List.map_cons, decodeElements_cons, decodeElements_cons, h v (by simp) layer f.shape,
        ih fun u hu => h u (by simp [hu])]

private theorem read?_sorted (hkeys : UniqueKeys ms) (h : ∀ m ∈ ms, ReadAlike m.2.sorted m.2)
    (layer : Layer) (fields : List Field) :
    Record.read? layer fields (sortMembers (ms.map sortedMember)) = Record.read? layer fields ms := by
  induction fields with
  | nil => rfl
  | cons f fs ih =>
    have hfield : f.read? layer (sortMembers (ms.map sortedMember)) = f.read? layer ms := by
      cases hv : ms.lookup f.name with
      | none =>
        have hsorted : (sortMembers (ms.map sortedMember)).lookup f.name = none := by
          rw [lookup_sorted hkeys, hv]
          rfl
        rw [Field.read?_of_lookup_eq_none hv, Field.read?_of_lookup_eq_none hsorted]
      | some v =>
        have hsorted : (sortMembers (ms.map sortedMember)).lookup f.name = some v.sorted := by
          rw [lookup_sorted hkeys, hv]
          rfl
        rw [Field.read?_of_lookup hv, Field.read?_of_lookup hsorted]
        exact h _ (hkeys.lookup_eq_some_iff.1 hv) layer f.shape
    rw [Record.read?, Record.read?, hfield, ih]

private theorem variantOf_sorted {α : Type} (variants : List (Variant α)) (tag : Value) :
    variantOf variants tag.sorted = variantOf variants tag := by
  cases tag <;> rfl

private theorem namedVariantOf_sorted {α : Type} (variants : List (Variant α)) (tag : Value) :
    namedVariantOf variants tag.sorted = namedVariantOf variants tag := by
  cases tag <;> rfl

private theorem MappingForm.read?_sorted {α : Type} (form : MappingForm α) (hkeys : UniqueKeys ms)
    (h : ∀ m ∈ ms, ReadAlike m.2.sorted m.2) (layer : Layer) :
    form.read? layer (sortMembers (ms.map sortedMember)) = form.read? layer ms := by
  cases form with
  | refused expected => rfl
  | record fields build => rw [read?, read?, Schema.read?_sorted hkeys h]
  | choice β variants shared build =>
    have htag : ((sortMembers (ms.map sortedMember)).lookup tagKey).bind
          (fun tag => (variantOf variants tag).toOption) =
        (ms.lookup tagKey).bind fun tag => (variantOf variants tag).toOption := by
      rw [lookup_sorted hkeys]
      cases ms.lookup tagKey with
      | none => rfl
      | some tag => exact congrArg Except.toOption (variantOf_sorted variants tag)
    simp only [read?, htag, Schema.read?_sorted hkeys h]

/-- Sorting the members of every object changes nothing that a decoder makes of a value. -/
theorem readAlike_sorted {v : Value} (h : v.DistinctKeys) : ReadAlike v.sorted v := by
  induction h with
  | null => exact fun _ _ => rfl
  | bool b => exact fun _ _ => rfl
  | number n => exact fun _ _ => rfl
  | string s => exact fun _ _ => rfl
  | @array items each ih =>
    intro layer s
    rw [Json.Value.sorted, Json.Value.sortedItems_eq, decode, decode]
    cases s.sequenceForm with
    | refused expected => rfl
    | items element build => simp [decodeItems_sorted ih]
    | record name fields build => simp [decodeElements_sorted ih]
    | choice variants =>
      cases items with
      | nil => rfl
      | cons tag rest =>
        have hrest : ∀ v ∈ rest, ReadAlike v.sorted v := fun v hv => ih v (by simp [hv])
        simp [variantOf_sorted, decodeElements_sorted hrest]
  | @object ms keys each ih =>
    intro layer s
    rw [Json.Value.sorted, Json.Value.sortedMembers_eq, decode_object layer s (uniqueKeys_sorted keys),
      decode_object layer s keys, MappingForm.read?_sorted _ keys ih]

theorem unitVariants_proper : ∀ v ∈ unitVariants, UniqueNames v.fields := by decide

theorem mem_of_namedVariantOf {α : Type} {variants : List (Variant α)} {tag : Value} {v : Variant α}
    (h : namedVariantOf variants tag = .ok v) : v ∈ variants := by
  unfold namedVariantOf at h
  split at h
  · exact (mem_of_variantNamed h).1
  · cases h

theorem decodeUnit_object_fill (ms : List (String × Value)) :
    (decodeUnit (.object ms)).toOption =
      (chooseVariant (namedVariantOf unitVariants) none ms).toOption.bind fun v =>
        (Record.fill? .inner v.fields ms).map v.build := by
  rw [decodeUnit, toOption_bind]
  refine Option.bind_congr fun v hv => ?_
  have hmem : v ∈ unitVariants :=
    mem_of_chooseVariant (fun _ _ => mem_of_namedVariantOf) (by simp) (toOption_eq_some_iff.1 hv)
  rw [unitOfMembers, ← decodeMembers_close_fill (unitVariants_proper v hmem)]
  simp [Option.map_bind]

theorem decodeUnit_object (hkeys : UniqueKeys ms) :
    (decodeUnit (.object ms)).toOption =
      ((ms.lookup tagKey).bind fun tag => (namedVariantOf unitVariants tag).toOption).bind fun v =>
        (Record.read? .inner v.fields ms).map v.build := by
  rw [decodeUnit_object_fill, chooseVariant_none hkeys]
  simp only [Record.fill?_eq_read? hkeys]

private theorem decodeUnit_sorted {v : Value} (h : v.DistinctKeys) :
    (decodeUnit v.sorted).toOption = (decodeUnit v).toOption := by
  cases h with
  | null => rfl
  | bool b => rfl
  | number n => rfl
  | string s => rfl
  | @array items each =>
    rw [Json.Value.sorted, Json.Value.sortedItems_eq]
    cases items with
    | nil => rfl
    | cons tag rest =>
      have hrest : ∀ v ∈ rest, ReadAlike v.sorted v := fun v hv => readAlike_sorted (each v (by simp [hv]))
      simp [decodeUnit, namedVariantOf_sorted, unitOfElements, decodeElements_sorted hrest]
  | @object ms keys each =>
    have hmembers : ∀ m ∈ ms, ReadAlike m.2.sorted m.2 := fun m hm => readAlike_sorted (each m hm)
    rw [Json.Value.sorted, Json.Value.sortedMembers_eq, decodeUnit_object (uniqueKeys_sorted keys),
      decodeUnit_object keys, lookup_sorted keys]
    simp only [read?_sorted keys hmembers]
    cases ms.lookup tagKey with
    | none => rfl
    | some tag => simp [namedVariantOf_sorted]

end Sorted

end Schema

/-- A value is decoded as it stands, though its members are sorted first. -/
theorem SourceUnit.ofValue_toOption {v : Json.Value} (h : v.DistinctKeys) :
    (ofValue v).toOption = (Schema.decodeUnit v).toOption := by
  rw [← Schema.decodeUnit_sorted h, ofValue]
  cases Schema.decodeUnit v.sorted <;> rfl

end RegionIR
