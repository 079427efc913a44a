import RegionIR.Proofs.Exchange
/-!
# Trees that vary in one literal

Of all that a tree is made of, only the literal of a constant is read off a truth value. So where a
value with a truth value in one place of it spells a tree, that place is passed over by the decoder, or
it is where a constant has its literal: then every literal may be put there, and the rest of the tree
stays as it is.
-/
namespace RegionIR.Schema

open Json (Value Around UniqueKeys)

mutual

/-- Carriers of a shape that are the same but for one literal in them, which is the argument. In a tree
it is the literal of a constant, for no other node has a field of that shape. -/
inductive Varies : (s : Shape) → (Literal → s.Carrier) → Prop
  | literal : Varies .literal fun l => l
  | optional {s : Shape} {F : Literal → s.Carrier} (inner : Varies s F) :
      Varies (.optional s) fun l => some (F l)
  | list {s : Shape} {F : Literal → s.Carrier} (before after : List s.Carrier) (inner : Varies s F) :
      Varies (.list s) fun l => before ++ F l :: after
  | expr {v : Variant ExprForm} {R : Literal → Record v.fields} (kind : v ∈ exprVariants)
      (span : Option Span) (fields : VariesIn v.fields R) :
      Varies .expr fun l => Expr.mk (v.build (R l)) span
  | stmt {v : Variant StmtForm} {R : Literal → Record v.fields} (kind : v ∈ stmtVariants)
      (span : Option Span) (fields : VariesIn v.fields R) :
      Varies .stmt fun l => Stmt.mk (v.build (R l)) span
  | param {R : Literal → Record paramFields} (fields : VariesIn paramFields R) :
      Varies .param fun l => paramOf (R l)
  | params {R : Literal → Record paramsFields} (fields : VariesIn paramsFields R) :
      Varies .params fun l => paramsOf (R l)
  | keyword {R : Literal → Record keywordFields} (fields : VariesIn keywordFields R) :
      Varies .keyword fun l => keywordOf (R l)

inductive VariesIn : (fields : List Field) → (Literal → Record fields) → Prop
  | here {f : Field} {fs : List Field} {F : Literal → f.shape.Carrier} (inner : Varies f.shape F)
      (rest : Record fs) : VariesIn (f :: fs) fun l => (F l, rest)
  | there {f : Field} {fs : List Field} {R : Literal → Record fs} (first : f.shape.Carrier)
      (inner : VariesIn fs R) : VariesIn (f :: fs) fun l => (first, R l)

end

def IsBare (w : Value) : Prop := (∃ b, w = .bool b) ∨ ∃ n, w = .number n

/-- What is read off a value with a truth value in one place of it, as it depends on what stands there:
it is the same for all, or it varies in one literal. -/
def Settled {α : Type} (V : (Literal → α) → Prop) (read : Value → Option α) : Prop :=
  ∀ a, read (.bool true) = some a → (∀ w, IsBare w → read w = some a) ∨
    ∃ F, V F ∧ a = F (.bool true) ∧ ∀ w l, IsBare w → readLiteral w = .ok l → read w = some (F l)

namespace Settled

variable {α β : Type} {V : (Literal → α) → Prop} {V' : (Literal → β) → Prop} {read : Value → Option α}

theorem map (h : Settled V read) {f : α → β} (hf : ∀ F, V F → V' fun l => f (F l)) :
    Settled V' fun w => (read w).map f := by
  intro b hb
  obtain ⟨a, ha, rfl⟩ := Option.map_eq_some_iff.1 hb
  rcases h a ha with hsame | ⟨F, hF, rfl, hread⟩
  · exact .inl fun w hw => congrArg (Option.map f) (hsame w hw)
  · exact .inr ⟨fun l => f (F l), hf F hF, rfl, fun w l hw hl => congrArg (Option.map f) (hread w l hw hl)⟩

theorem congr (h : Settled V read) {read' : Value → Option α} (heq : ∀ w, IsBare w → read w = read' w) :
    Settled V read' := by
  intro a ha
  rw [← heq _ (.inl ⟨true, rfl⟩)] at ha
  rcases h a ha with hsame | ⟨F, hF, hvalue, hread⟩
  · exact .inl fun w hw => by rw [← heq w hw, hsame w hw]
  · exact .inr ⟨F, hF, hvalue, fun w l hw hl => by rw [← heq w hw, hread w l hw hl]⟩

private theorem of_const {x : Option α} (h : ∀ w, IsBare w → read w = x) : Settled V read := by
  intro a ha
  rw [h _ (.inl ⟨true, rfl⟩)] at ha
  exact .inl fun w hw => by rw [h w hw, ha]

private theorem of_none (h : read (.bool true) = none) : Settled V read := by
  intro a ha
  rw [h] at ha
  cases ha

private theorem bind_fixed (h : Settled V read) {U : (Literal → β) → Prop} {read' : Value → Option β}
    (h' : Settled U read') (hfixed : ∀ F, ¬U F) {γ : Type} {W : (Literal → γ) → Prop} {f : α → β → γ}
    (hf : ∀ F b, V F → W fun l => f (F l) b) :
    Settled W fun w => (read w).bind fun a => (read' w).map fun b => f a b := by
  intro c hc
  obtain ⟨a, ha, hmap⟩ := Option.bind_eq_some_iff.1 hc
  obtain ⟨b, hb, rfl⟩ := Option.map_eq_some_iff.1 hmap
  have hsame' : ∀ w, IsBare w → read' w = some b :=
    (h' b hb).resolve_right fun ⟨F, hF, _⟩ => hfixed F hF
  rcases h a ha with hsame | ⟨F, hF, rfl, hread⟩
  · exact .inl fun w hw => by simp [hsame w hw, hsame' w hw]
  · exact .inr ⟨fun l => f (F l) b, hf F b hF, rfl, fun w l hw hl => by simp [hread w l hw hl, hsame' w hw]⟩

private theorem bind_const (h : Settled V read) {other : Option β} {γ : Type} {W : (Literal → γ) → Prop}
    {f : α → β → γ} (hf : ∀ F b, V F → W fun l => f (F l) b) :
    Settled W fun w => (read w).bind fun a => other.map fun b => f a b :=
  h.bind_fixed (U := fun _ => False) (.of_const fun _ _ => rfl) (fun _ => id) hf

private theorem const_bind {other : Option β} {γ : Type} {V' : (Literal → γ) → Prop}
    {read : β → Value → Option α}
    (h : ∀ b, Settled V (read b)) {f : β → α → γ} (hf : ∀ F b, V F → V' fun l => f b (F l)) :
    Settled V' fun w => other.bind fun b => (read b w).map fun a => f b a := by
  cases other with
  | none => exact nofun
  | some b => exact (h b).map fun F hF => hf F b hF

end Settled

private theorem decode_of_isBare {layer : Layer} {s : Shape} {w : Value} (hw : IsBare w) :
    decode layer s w = readScalar s w := by
  rcases hw with ⟨b, rfl⟩ | ⟨n, rfl⟩ <;> rfl

private theorem readScalar_optional {s : Shape} {w : Value} (hw : IsBare w) :
    (readScalar (.optional s) w).toOption = (readScalar s w).toOption.map some := by
  rcases hw with ⟨b, rfl⟩ | ⟨n, rfl⟩ <;> exact toOption_map some (readScalar s _)

private theorem readScalar_settled (s : Shape) :
    Settled (Varies s) fun w => (readScalar s w).toOption := by
  induction s with
  | literal =>
    intro a ha
    cases ha
    exact .inr ⟨fun l => l, .literal, rfl, fun w l _ hl => toOption_eq_some_iff.2 hl⟩
  | optional s ih =>
    exact (ih.map fun F hF => .optional hF).congr fun w hw => (readScalar_optional hw).symm
  | _ => exact .of_none rfl

section Parts

variable {K : Value → Value} {layer : Layer}

/-- A value is settled in whatever shape it is read. -/
def SettledIn (K : Value → Value) : Prop :=
  ∀ layer s, Settled (Varies s) fun w => (decode layer s (K w)).toOption

private theorem decodeItems_cons (s : Shape) (v : Value) (rest : List Value) :
    (decodeItems layer s (v :: rest)).toOption =
      (decode layer s v).toOption.bind fun a => (decodeItems layer s rest).toOption.map fun as => a :: as := by
  rw [decodeItems]
  simp [Option.map_eq_bind]

private theorem decodeItems_settled (hK : SettledIn K) (s : Shape) (before after : List Value) :
    Settled (Varies (.list s)) fun w => (decodeItems layer s (before ++ K w :: after)).toOption := by
  induction before with
  | nil =>
    simp only [List.nil_append, decodeItems_cons]
    exact (hK layer s).bind_const fun F as hF => .list [] as hF
  | cons v before ih =>
    simp only [List.cons_append, decodeItems_cons]
    refine Settled.const_bind (fun _ => ih) fun F a hF => ?_
    cases hF with
    | list before after inner => exact .list (a :: before) after inner

private theorem decodeElements_settled (hK : SettledIn K) (expected : Expected) (index : Nat)
    (fields : List Field) (before after : List Value) :
    Settled (VariesIn fields) fun w =>
      (decodeElements layer expected index fields (before ++ K w :: after)).toOption := by
  induction before generalizing fields index with
  | nil =>
    cases fields with
    | nil => exact .of_none rfl
    | cons f fs =>
      simp only [List.nil_append, decodeElements_cons]
      exact (hK layer f.shape).bind_const fun F r hF => .here hF r
  | cons v before ih =>
    cases fields with
    | nil => exact .of_none rfl
    | cons f fs =>
      simp only [List.cons_append, decodeElements_cons]
      exact Settled.const_bind (fun _ => ih (index + 1) fs) fun R a hR => .there a hR

variable {key : String} {before after : List (String × Value)}

private theorem Field.fill_of_ne {f : Field} (hkey : f.name ≠ key) (x : Option f.shape.Carrier)
    (v : Value) :
    f.fill layer x (before ++ (key, v) :: after) = f.fill layer x (before ++ after) := by
  induction before generalizing x with
  | nil => rw [List.nil_append, Field.fill, if_neg hkey, List.nil_append]
  | cons m before ih =>
    obtain ⟨k, u⟩ := m
    simp only [List.cons_append, Field.fill, ih]

private theorem Field.fill_some {f : Field} (a : f.shape.Carrier) (ms : List (String × Value)) :
    f.fill layer (some a) ms = if (ms.lookup f.name).isSome then none else some (some a) := by
  induction ms with
  | nil => rfl
  | cons m ms ih =>
    obtain ⟨k, u⟩ := m
    by_cases hk : f.name = k
    · simp [Field.fill, hk]
    · have hk' : (f.name == k) = false := by simpa using hk
      rw [Field.fill, if_neg hk, ih, List.lookup_cons, hk']

private theorem Field.fill_settled (hK : SettledIn K) {f : Field} (hkey : f.name = key)
    (x : Option f.shape.Carrier) :
    Settled (Varies f.shape) fun w =>
      (f.fill layer x (before ++ (key, K w) :: after)).bind fun y => y <|> f.fallback := by
  induction before generalizing x with
  | nil =>
    cases x with
    | some a => exact .of_none (by simp [Field.fill, hkey])
    | none =>
      simp only [List.nil_append, Field.fill, if_pos hkey, Field.fill_some, Option.isSome_none,
        Bool.false_eq_true, if_false]
      split_ifs
      · exact .of_none (by simp)
      · exact (hK layer f.shape).congr fun w _ => by cases (decode layer f.shape (K w)).toOption <;> rfl
  | cons m before ih =>
    obtain ⟨k, u⟩ := m
    simp only [List.cons_append, Field.fill]
    split_ifs
    · exact .of_none rfl
    · cases (decode layer f.shape u).toOption with
      | none => exact .of_none rfl
      | some a => exact ih (some a)
    · exact ih x

private theorem Record.fill?_of_ne {fields : List Field} (hkey : ∀ f ∈ fields, f.name ≠ key)
    (v : Value) :
    Record.fill? layer fields (before ++ (key, v) :: after) = Record.fill? layer fields (before ++ after) := by
  induction fields with
  | nil => rfl
  | cons f fs ih =>
    rw [Record.fill?, Record.fill?, Field.fill_of_ne (hkey f (by simp)), ih fun g hg => hkey g (by simp [hg])]

private theorem Record.fill?_settled (hK : SettledIn K) {fields : List Field}
    (hfields : UniqueNames fields) :
    Settled (VariesIn fields) fun w => Record.fill? layer fields (before ++ (key, K w) :: after) := by
  induction fields with
  | nil => exact .of_const fun _ _ => rfl
  | cons f fs ih =>
    have hnames := List.nodup_cons.1 hfields
    simp only [Record.fill?]
    by_cases hkey : f.name = key
    · have hothers : ∀ g ∈ fs, g.name ≠ key := fun g hg heq =>
        hnames.1 (List.mem_map.2 ⟨g, hg, heq.trans hkey.symm⟩)
      simp only [Record.fill?_of_ne hothers]
      exact (Field.fill_settled hK hkey none).bind_const fun F r hF => .here hF r
    · simp only [Field.fill_of_ne hkey]
      exact Settled.const_bind (fun _ => ih hnames.2) fun R a hR => .there a hR

section Tags

variable {α : Type} {readTag : Value → Except Mismatch (Variant α)}

private theorem chooseVariant_of_ne (hkey : key ≠ tagKey) (seen : Option (Variant α)) (v : Value) :
    chooseVariant readTag seen (before ++ (key, v) :: after) = chooseVariant readTag seen (before ++ after) := by
  induction before generalizing seen with
  | nil => exact chooseVariant_skip hkey seen
  | cons m before ih =>
    obtain ⟨k, u⟩ := m
    simp only [List.cons_append]
    by_cases hk : k = tagKey
    · subst hk
      cases seen with
      | none => simp only [chooseVariant_tag, ih]
      | some w => simp only [chooseVariant_second]
    · simp only [chooseVariant_skip hk, ih]

private theorem chooseVariant_refused (v : Value) (hv : (readTag v).toOption = none)
    (seen : Option (Variant α)) :
    (chooseVariant readTag seen (before ++ (tagKey, v) :: after)).toOption = none := by
  induction before generalizing seen with
  | nil =>
    cases seen with
    | none => simp [chooseVariant_tag, hv]
    | some w => simp [chooseVariant_second]
  | cons m before ih =>
    obtain ⟨k, u⟩ := m
    simp only [List.cons_append]
    by_cases hk : k = tagKey
    · subst hk
      cases seen with
      | none => simp [chooseVariant_tag, ih]
      | some w => simp [chooseVariant_second]
    · simp only [chooseVariant_skip hk, ih]

end Tags

namespace SequenceForm

def read? {α : Type} (layer : Layer) (elements : List Value) : SequenceForm α → Option α
  | refused _ => none
  | items element build => (decodeItems layer element elements).toOption.map build
  | record name fields build =>
    (decodeElements layer (.recordOf name fields.length) 0 fields elements).toOption.map build
  | choice variants =>
    (elements.head?.bind fun tag => (variantOf variants tag).toOption).bind fun v =>
      (decodeElements .inner .sequence 0 v.fields elements.tail).toOption.map v.build

/-- What is built of parts that vary in one literal varies in it. -/
def Varying {α : Type} (V : (Literal → α) → Prop) : SequenceForm α → Prop
  | refused _ => True
  | items element build => ∀ F, Varies (.list element) F → V fun l => build (F l)
  | record _ fields build => ∀ R, VariesIn fields R → V fun l => build (R l)
  | choice variants => ∀ v ∈ variants, ∀ R, VariesIn v.fields R → V fun l => v.build (R l)

theorem Varying.map {α β : Type} {V : (Literal → α) → Prop} {V' : (Literal → β) → Prop}
    {form : SequenceForm α} (h : form.Varying V) {f : α → β} (hf : ∀ F, V F → V' fun l => f (F l)) :
    (form.map f).Varying V' := by
  cases form with
  | refused expected => trivial
  | items element build => exact fun F hF => hf _ (h F hF)
  | record name fields build => exact fun R hR => hf _ (h R hR)
  | choice variants =>
    rintro w hw R hR
    obtain ⟨v, hv, rfl⟩ := List.mem_map.1 hw
    exact hf _ (h v hv R hR)

end SequenceForm

namespace MappingForm

/-- What is built of parts that vary in one literal varies in it; the shared parts cannot vary. -/
def Varying {α : Type} (V : (Literal → α) → Prop) : MappingForm α → Prop
  | refused _ => True
  | record fields build => ∀ R, VariesIn fields R → V fun l => build (R l)
  | choice _ variants shared build =>
    (∀ v ∈ variants, ∀ R common, VariesIn v.fields R → V fun l => build (v.build (R l)) common) ∧
      ∀ R, ¬VariesIn shared R

theorem Varying.map {α β : Type} {V : (Literal → α) → Prop} {V' : (Literal → β) → Prop}
    {form : MappingForm α} (h : form.Varying V) {f : α → β} (hf : ∀ F, V F → V' fun l => f (F l)) :
    (form.map f).Varying V' := by
  cases form with
  | refused expected => trivial
  | record fields build => exact fun R hR => hf _ (h R hR)
  | choice γ variants shared build => exact ⟨fun v hv R c hR => hf _ (h.1 v hv R c hR), h.2⟩

end MappingForm

private theorem VariesIn.exists_field {fields : List Field} {R : Literal → Record fields}
    (h : VariesIn fields R) :
    ∃ f ∈ fields, ∃ F, Varies f.shape F := by
  induction fields with
  | nil => cases h
  | cons f fs ih =>
    cases h with
    | here inner rest => exact ⟨f, by simp, _, inner⟩
    | there first inner =>
      obtain ⟨g, hg, F, hF⟩ := ih inner
      exact ⟨g, by simp [hg], F, hF⟩

private theorem not_variesIn_of_plain {α : Type} {variants : List (Variant α)}
    (h : ∀ v ∈ variants, v.fields = [])
    {v : Variant α} (hv : v ∈ variants) {R : Literal → Record v.fields} : ¬VariesIn v.fields R := by
  intro hR
  obtain ⟨f, hf, -⟩ := hR.exists_field
  rw [h v hv] at hf
  cases hf

private theorem Varies.ne_position {s : Shape} {F : Literal → s.Carrier} (h : Varies s F) :
    s ≠ .optional .position := by
  rintro rfl
  cases h with
  | optional inner => cases inner

private theorem not_variesIn_positionFields (R : Literal → Record positionFields) :
    ¬VariesIn positionFields R := by
  intro hR
  obtain ⟨f, hf, F, hF⟩ := hR.exists_field
  have hshape : ∀ f ∈ positionFields, f.shape = .optional .position := by
    simp [positionFields, Field.optional]
  exact hF.ne_position (hshape f hf)

private theorem Shape.sequenceForm_varying (s : Shape) : s.sequenceForm.Varying (Varies s) := by
  induction s with
  | boolOperator => exact fun v hv R hR => (not_variesIn_of_plain (by decide) hv hR).elim
  | binaryOperator => exact fun v hv R hR => (not_variesIn_of_plain (by decide) hv hR).elim
  | cmpOperator => exact fun v hv R hR => (not_variesIn_of_plain (by decide) hv hR).elim
  | unaryOperator => exact fun v hv R hR => (not_variesIn_of_plain (by decide) hv hR).elim
  | param => exact fun R hR => .param hR
  | params => exact fun R hR => .params hR
  | keyword => exact fun R hR => .keyword hR
  | optional s ih => exact ih.map fun F hF => .optional hF
  | list s _ => exact fun F hF => hF
  | text => trivial
  | byte => trivial
  | position => trivial
  | literal => trivial
  | expr => trivial
  | stmt => trivial

private theorem Shape.mappingForm_varying (s : Shape) : s.mappingForm.Varying (Varies s) := by
  induction s with
  | boolOperator => exact ⟨fun v hv R _ hR => (not_variesIn_of_plain (by decide) hv hR).elim, nofun⟩
  | binaryOperator => exact ⟨fun v hv R _ hR => (not_variesIn_of_plain (by decide) hv hR).elim, nofun⟩
  | cmpOperator => exact ⟨fun v hv R _ hR => (not_variesIn_of_plain (by decide) hv hR).elim, nofun⟩
  | unaryOperator => exact ⟨fun v hv R _ hR => (not_variesIn_of_plain (by decide) hv hR).elim, nofun⟩
  | expr => exact ⟨fun v hv R common hR => .expr hv (spanOf common) hR, not_variesIn_positionFields⟩
  | stmt => exact ⟨fun v hv R common hR => .stmt hv (spanOf common) hR, not_variesIn_positionFields⟩
  | param => exact fun R hR => .param hR
  | params => exact fun R hR => .params hR
  | keyword => exact fun R hR => .keyword hR
  | optional s ih => exact ih.map fun F hF => .optional hF
  | list s _ => trivial
  | text => trivial
  | byte => trivial
  | position => trivial
  | literal => trivial

private theorem decode_array (layer : Layer) (s : Shape) (elements : List Value) :
    (decode layer s (.array elements)).toOption = s.sequenceForm.read? layer elements := by
  rw [decode]
  cases s.sequenceForm with
  | refused expected => rfl
  | items element build => simp [SequenceForm.read?]
  | record name fields build => simp [SequenceForm.read?]
  | choice variants =>
    cases elements with
    | nil => rfl
    | cons tag rest => simp [SequenceForm.read?]

private def NoTag (v : Value) : Prop := ∀ (α : Type) (variants : List (Variant α)),
  (variantOf variants v).toOption = none ∧ (namedVariantOf variants v).toOption = none

private theorem SequenceForm.read?_settled (hK : SettledIn K) (htag : NoTag (K (.bool true))) {α : Type}
    {V : (Literal → α) → Prop} {form : SequenceForm α} (hform : form.Varying V) (before after : List Value) :
    Settled V fun w => form.read? layer (before ++ K w :: after) := by
  cases form with
  | refused expected => exact .of_none rfl
  | items element build => exact (decodeItems_settled hK element before after).map hform
  | record name fields build => exact (decodeElements_settled hK _ 0 fields before after).map hform
  | choice variants =>
    cases before with
    | nil => exact .of_none (by simp [SequenceForm.read?, (htag α variants).1])
    | cons tag before =>
      simp only [SequenceForm.read?, List.cons_append, List.head?_cons, Option.bind_some, List.tail_cons]
      cases hv : variantOf variants tag with
      | error m => exact .of_none rfl
      | ok v =>
        exact (decodeElements_settled hK _ 0 v.fields before after).map
          (hform v (mem_of_variantOf hv))

private theorem MappingForm.fill?_settled (hK : SettledIn K) (htag : NoTag (K (.bool true))) {α : Type}
    {V : (Literal → α) → Prop} {form : MappingForm α} (hproper : form.Proper) (hform : form.Varying V) :
    Settled V fun w => form.fill? layer (before ++ (key, K w) :: after) := by
  cases form with
  | refused expected => exact .of_none rfl
  | record fields build => exact (Record.fill?_settled hK hproper).map hform
  | choice β variants shared build =>
    by_cases hkey : key = tagKey
    · subst hkey
      exact .of_none (by simp only [MappingForm.fill?, chooseVariant_refused _ (htag β variants).1, Option.bind_none])
    · simp only [MappingForm.fill?, chooseVariant_of_ne hkey]
      cases hv : chooseVariant (variantOf variants) none (before ++ after) with
      | error m => exact .of_none rfl
      | ok v =>
        have hmem : v ∈ variants := mem_of_chooseVariant (fun _ _ => mem_of_variantOf) (by simp) hv
        exact (Record.fill?_settled hK (hproper.1 v hmem)).bind_fixed (Record.fill?_settled hK hproper.2)
          hform.2 fun R common hR => hform.1 v hmem R common hR

end Parts

private theorem noTag_of_around {K : Value → Value} (h : Around K) : NoTag (K (.bool true)) := by
  intro α variants
  cases h <;> exact ⟨rfl, rfl⟩

/-- Whatever stands around a truth value, and in whatever shape it is read: the truth value is passed
over, or it is the literal of a constant. -/
theorem settledIn_of_around {K : Value → Value} (h : Around K) : SettledIn K := by
  induction h with
  | here =>
    intro layer s
    exact (readScalar_settled s).congr fun w hw => by rw [decode_of_isBare hw]
  | item before after inner ih =>
    intro layer s
    simp only [decode_array]
    exact SequenceForm.read?_settled ih (noTag_of_around inner) s.sequenceForm_varying before after
  | member before after key inner ih =>
    intro layer s
    simp only [decode_object_fill]
    exact MappingForm.fill?_settled ih (noTag_of_around inner) s.mappingForm_proper s.mappingForm_varying

def VariesUnit (place : Literal → SourceUnit) : Prop :=
  ∃ body : Literal → List Stmt, Varies (.list .stmt) body ∧ place = fun l => .module (body l)

private theorem unitVariants_varying :
    ∀ v ∈ unitVariants, ∀ R, VariesIn v.fields R → VariesUnit fun l => v.build (R l) := by
  simp only [unitVariants, List.forall_mem_cons]
  refine ⟨fun R hR => ?_, nofun, nofun, nofun, nofun⟩
  cases hR with
  | @here _ _ body inner rest => exact ⟨body, inner, rfl⟩
  | there first inner => cases inner

/-- Where a value spells a unit, a truth value in it is passed over, or it is the literal of a constant. -/
theorem decodeUnit_settled {K : Value → Value} (h : Around K) :
    Settled VariesUnit fun w => (decodeUnit (K w)).toOption := by
  cases h with
  | here => exact .of_none rfl
  | @item K before after inner =>
    cases before with
    | nil => exact .of_none (by simp [decodeUnit, (noTag_of_around inner SourceUnit unitVariants).2])
    | cons tag before =>
      simp only [List.cons_append, decodeUnit, unitOfElements]
      cases hv : namedVariantOf unitVariants tag with
      | error m => exact .of_none rfl
      | ok v =>
        have hfields : Settled (VariesIn v.fields) fun w =>
            (decodeElements .inner .sequence 0 v.fields (before ++ K w :: after)).toOption :=
          decodeElements_settled (settledIn_of_around inner) _ 0 v.fields before after
        exact (hfields.map (unitVariants_varying v (mem_of_namedVariantOf hv))).congr fun w _ => by simp
  | @member K before after key inner =>
    simp only [decodeUnit_object_fill]
    by_cases hkey : key = tagKey
    · subst hkey
      exact .of_none (by
        simp only [chooseVariant_refused _ (noTag_of_around inner SourceUnit unitVariants).2,
          Option.bind_none])
    · simp only [chooseVariant_of_ne hkey]
      cases hv : chooseVariant (namedVariantOf unitVariants) none (before ++ after) with
      | error m => exact .of_none rfl
      | ok v =>
        have hmem : v ∈ unitVariants := mem_of_chooseVariant (fun _ _ => mem_of_namedVariantOf) (by simp) hv
        exact (Record.fill?_settled (settledIn_of_around inner) (unitVariants_proper v hmem)).map
          (unitVariants_varying v hmem)

private theorem Variant.injective_plain {α : Type} (name : String) (a : α) :
    Function.Injective (Variant.plain name a).build := fun _ _ _ => rfl

private theorem exprVariants_injective : ∀ v ∈ exprVariants, Function.Injective v.build := by
  simp only [exprVariants, List.forall_mem_cons, bareExpr, Variant.injective_plain, true_and]
  refine ⟨fun (_, _, ()) (_, _, ()) h => by cases h; rfl,
    fun (_, _, _, ()) (_, _, _, ()) h => by cases h; rfl,
    fun (_, _, ()) (_, _, ()) h => by cases h; rfl,
    fun (_, _, _, ()) (_, _, _, ()) h => by cases h; rfl,
    fun (_, _, _, ()) (_, _, _, ()) h => by cases h; rfl,
    fun (_, _, ()) (_, _, ()) h => by cases h; rfl,
    fun (_, _, ()) (_, _, ()) h => by cases h; rfl,
    fun (_, _, ()) (_, _, ()) h => by cases h; rfl,
    fun (_, ()) (_, ()) h => by cases h; rfl,
    fun (_, ()) (_, ()) h => by cases h; rfl,
    fun (_, ()) (_, ()) h => by cases h; rfl,
    fun (_, ()) (_, ()) h => by cases h; rfl,
    fun (_, ()) (_, ()) h => by cases h; rfl, nofun⟩

private theorem stmtVariants_injective : ∀ v ∈ stmtVariants, Function.Injective v.build := by
  simp only [stmtVariants, List.forall_mem_cons, bareStmt, Variant.injective_plain, true_and]
  refine ⟨fun (_, _, _, _, _, ()) (_, _, _, _, _, ()) h => by cases h; rfl,
    fun (_, _, _, _, _, ()) (_, _, _, _, _, ()) h => by cases h; rfl,
    fun (_, ()) (_, ()) h => by cases h; rfl,
    fun (_, _, ()) (_, _, ()) h => by cases h; rfl,
    fun (_, _, _, ()) (_, _, _, ()) h => by cases h; rfl,
    fun (_, _, _, _, ()) (_, _, _, _, ()) h => by cases h; rfl,
    fun (_, _, _, _, ()) (_, _, _, _, ()) h => by cases h; rfl,
    fun (_, _, _, ()) (_, _, _, ()) h => by cases h; rfl,
    fun (_, _, _, ()) (_, _, _, ()) h => by cases h; rfl,
    fun (_, ()) (_, ()) h => by cases h; rfl, nofun⟩

private theorem paramOf_injective : Function.Injective paramOf :=
  fun (_, _, ()) (_, _, ()) h => by cases h; rfl

private theorem paramsOf_injective : Function.Injective paramsOf :=
  fun (_, _, _, _, _, _, _, ()) (_, _, _, _, _, _, _, ()) h => by cases h; rfl

private theorem keywordOf_injective : Function.Injective keywordOf :=
  fun (_, _, ()) (_, _, ()) h => by cases h; rfl

private theorem Varies.injective {s : Shape} {F : Literal → s.Carrier} (h : Varies s F) :
    Function.Injective F := by
  refine @Varies.rec (fun _ F _ => Function.Injective F) (fun _ R _ => Function.Injective R)
    ?literal ?optional ?list ?expr ?stmt ?param ?params ?keyword ?here ?there s F h
  case literal => exact Function.injective_id
  case optional =>
    intro s F inner ih
    exact (Option.some_injective _).comp ih
  case list =>
    intro s F before after inner ih l l' heq
    exact ih (List.cons.inj (List.append_cancel_left heq)).1
  case expr =>
    intro v R kind span fields ih l l' heq
    exact ih (exprVariants_injective v kind (Expr.mk.inj heq).1)
  case stmt =>
    intro v R kind span fields ih l l' heq
    exact ih (stmtVariants_injective v kind (Stmt.mk.inj heq).1)
  case param =>
    intro R fields ih
    exact paramOf_injective.comp ih
  case params =>
    intro R fields ih
    exact paramsOf_injective.comp ih
  case keyword =>
    intro R fields ih
    exact keywordOf_injective.comp ih
  case here =>
    intro f fs F inner rest ih l l' heq
    exact ih (Prod.mk.inj heq).1
  case there =>
    intro f fs R first inner ih l l' heq
    exact ih (Prod.mk.inj heq).2

theorem VariesUnit.injective {place : Literal → SourceUnit} (h : VariesUnit place) :
    Function.Injective place := by
  obtain ⟨body, hbody, rfl⟩ := h
  intro l l' heq
  exact hbody.injective (SourceUnit.module.inj heq)

def numberLiteral : Json.Number → Literal
  | .int n => integerLiteral n
  | .float x => .float x

private theorem readLiteral_number (n : Json.Number) :
    readLiteral (.number n) = .ok (numberLiteral n) := by
  cases n <;> rfl

section Places

variable {pre post t : String} {K : Value → Value}

private theorem load_gap (gap : Json.Gap pre post K) {first : Char} (hhead : t.toList.head? = some first)
    (hfirst : Json.isBare first = true) {x : Option Value}
    (hspells : Json.Spells t.toList post.toList x) :
    (SourceUnit.load (pre ++ t ++ post)).toOption = x.bind fun w => (decodeUnit (K w)).toOption := by
  obtain ⟨hsome, hnone⟩ := gap.spelled hhead hfirst hspells
  cases x with
  | some w => rw [load_toOption (hsome w rfl), Option.bind_some]
  | none =>
    rw [Option.bind_none, Option.eq_none_iff_forall_ne_some]
    intro u hu
    obtain ⟨v, hparse, hdecode⟩ := load_eq_ok_iff.1 (toOption_eq_some_iff.1 hu)
    have hrefused := decodeUnit_of_isScalar (hnone rfl v hparse)
    rw [hdecode] at hrefused
    cases hrefused

/-- Where the two truth values make two units of a text, a number makes the unit with its literal. -/
theorem exists_place {u₁ u₀ : SourceUnit} (houtside : Json.Lexical.code.after pre.toList = .code)
    (htrue : SourceUnit.load (pre ++ "true" ++ post) = .ok u₁)
    (hfalse : SourceUnit.load (pre ++ "false" ++ post) = .ok u₀) (hne : u₁ ≠ u₀) :
    ∃ place, VariesUnit place ∧ place (.bool true) = u₁ ∧ place (.bool false) = u₀ ∧
      (∀ c ∈ post.toList.head?, Json.isDelimiter c = true) ∧
      ∀ (t : String) (first : Char) (x : Option Json.Number), t.toList.head? = some first →
        Json.isBare first = true → Json.Spells t.toList post.toList (x.map .number) →
        (SourceUnit.load (pre ++ t ++ post)).toOption = x.map fun n => place (numberLiteral n) := by
  obtain ⟨v, hparse, hdecode⟩ := load_eq_ok_iff.1 htrue
  have hv : ¬IsScalar v := by
    intro hscalar
    have hrefused := decodeUnit_of_isScalar hscalar
    rw [hdecode] at hrefused
    cases hrefused
  obtain ⟨K, gap, rfl⟩ := Json.exists_gap houtside hparse hv
  have hfalse' : (decodeUnit (K (.bool false))).toOption = some u₀ := by
    have hhead : "false".toList.head? = some 'f' := rfl
    have hload := load_gap gap hhead (by decide) (Json.spells_false post.toList)
    rwa [hfalse, toOption_ok, Option.bind_some, eq_comm] at hload
  rcases decodeUnit_settled gap.around u₁ (toOption_eq_some_iff.2 hdecode) with hsame | ⟨place, hplace, rfl, hread⟩
  · have hconst : (decodeUnit (K (.bool false))).toOption = some u₁ := hsame _ (.inl ⟨false, rfl⟩)
    rw [hfalse'] at hconst
    exact absurd (Option.some.inj hconst).symm hne
  · refine ⟨place, hplace, rfl, ?_, gap.delimited, fun t first x hhead hfirst hspells => ?_⟩
    · have hread' := hread (.bool false) (.bool false) (.inl ⟨false, rfl⟩) rfl
      exact Option.some.inj (hread'.symm.trans hfalse')
    · rw [load_gap gap hhead hfirst hspells]
      cases x with
      | none => rfl
      | some n => exact hread (.number n) (numberLiteral n) (.inr ⟨n, rfl⟩) (readLiteral_number n)

end Places

end RegionIR.Schema
