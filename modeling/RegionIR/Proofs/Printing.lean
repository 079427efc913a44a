import RegionIR.Proofs.Legibility
/-!
# The text of an operator determines it

No two plain operators have the same text. An operator is plain if its names are words, its types and
attributes are plain, its lists of types are as long as those of the values, and each of its regions is
one block. Inside a region the character after the indentation tells a label, an operator and the closing
brace apart.
-/
namespace RegionIR

private theorem LegibleAt.keyed {α β : Type} {isKey : α → Prop} {isValue : β → Prop}
    {key : α → List Char}
    {value : β → List Char} {p : Char → Bool} {follow : List Char → Prop} {a : α} {b : β} {sep : Char}
    (gap : List Char) (hsep : p sep = true) (hkey : LegibleAt isKey key (StartsIn p) a)
    (hvalue : LegibleAt isValue value follow b) :
    LegibleAt (fun x : α × β => isKey x.1 ∧ isValue x.2)
      (fun x => key x.1 ++ sep :: (gap ++ value x.2)) follow (a, b) := by
  rintro ⟨a', b'⟩ r s ⟨ha', hb'⟩ hr hs heq
  simp only [List.append_assoc, List.cons_append] at heq
  obtain ⟨haa', hrest⟩ := hkey a' _ _ ha' (.cons hsep _) (.cons hsep _) heq
  have htail := List.append_cancel_left (List.cons.inj hrest).2
  obtain ⟨hbb', hrs⟩ := hvalue b' _ _ hb' hr hs htail
  exact ⟨by rw [haa', hbb'], hrs⟩

namespace ValueId

def Plain (v : ValueId) : Prop := IsWord v.text

def chars (v : ValueId) : List Char := v.text.toList

private theorem Plain.legible {v : ValueId} (h : v.Plain) :
    LegibleAt Plain chars (StartsIn (! isWordChar ·)) v := by
  intro w r s hw hr hs heq
  obtain ⟨htext, hrs⟩ := IsWord.legible h w.text r s hw hr hs heq
  exact ⟨congrArg ValueId.mk htext, hrs⟩

private theorem legible_list {vs : List ValueId} (plain : ∀ v ∈ vs, v.Plain) :
    LegibleAt (fun ws => ∀ w ∈ ws, Plain w) (separated [' '] chars) (fun r =>
      StartsIn (! isWordChar ·) r ∧ StartsIn (fun c => ! isWordChar c && c != ',') r) vs :=
  .list isWordChar [' '] (fun r => .cons (by decide) r) (fun _ hv => IsWord.lead hv) plain
    fun v hv => (plain v hv).legible

end ValueId

namespace Head

/-- An operator's line with words for names, a type for each value, and plain types and attributes. -/
structure Plain (h : Head) : Prop where
  name : IsWord h.name
  results : ∀ v ∈ h.results, v.Plain
  resultTypes : ∀ t ∈ h.resultTypes, t.Plain
  resultTypes_length : h.resultTypes.length = h.results.length
  args : ∀ v ∈ h.args, v.Plain
  argTypes : ∀ t ∈ h.argTypes, t.Plain
  argTypes_length : h.argTypes.length = h.args.length
  attrs : ∀ p ∈ h.attrs.entries, IsWord p.1 ∧ p.2.Plain

def equals (h : Head) : List Char := if h.results.isEmpty then [] else [' ', '=', ' ']

theorem opening_chars (h : Head) :
    h.opening.toList = separated [' '] ValueId.chars h.results ++ (h.equals ++
      '"' :: (h.opcode.toList ++ '"' :: '(' :: (separated [' '] ValueId.chars h.args ++ [')']))) := by
  have hchars : ValueId.chars = String.toList ∘ ValueId.text := rfl
  unfold opening equals
  split
  · simp_all [separated, String.toList_intercalate]
  · simp [hchars, separated, String.toList_intercalate]

private theorem opcode_inj {h k : Head} (heq : h.opcode = k.opcode) :
    h.dialect = k.dialect ∧ h.name = k.name := by
  have hchars := congrArg String.toList heq
  simp only [opcode, String.toList_append, List.append_assoc] at hchars
  cases hd : h.dialect <;> cases kd : k.dialect <;>
    simp [hd, kd, Dialect.text, String.toList_inj] at hchars ⊢
  all_goals exact hchars

private theorem Plain.opcode {h : Head} (hp : h.Plain) : IsWord h.opcode := by
  have hdialect : IsWord (h.dialect.text ++ ".") := by
    cases h.dialect <;> decide
  refine ⟨by simp [Head.opcode], ?_⟩
  rw [Head.opcode, String.toList_append, List.all_append, hdialect.2, hp.name.2]
  rfl

private theorem Plain.opening_inj {h k : Head} (hp : h.Plain) (kp : k.Plain) {r s : List Char}
    (heq : h.opening.toList ++ r = k.opening.toList ++ s) :
    h.results = k.results ∧ (h.dialect = k.dialect ∧ h.name = k.name) ∧ h.args = k.args ∧ r = s := by
  have hequals : ∀ (g : Head) (p : Char → Bool), p ' ' = true → p '"' = true → ∀ l,
      StartsIn p (g.equals ++ '"' :: l) := by
    intro g p hblank hquote l
    unfold equals
    split
    · exact .cons hquote _
    · exact .cons hblank _
  simp only [opening_chars, List.append_assoc, List.cons_append, List.nil_append] at heq
  obtain ⟨hresults, hrest⟩ := ValueId.legible_list hp.results _ _ _ kp.results
    ⟨hequals _ _ (by decide) (by decide) _, hequals _ _ (by decide) (by decide) _⟩
    ⟨hequals _ _ (by decide) (by decide) _, hequals _ _ (by decide) (by decide) _⟩ heq
  have hsame : h.equals = k.equals := by rw [equals, equals, hresults]
  rw [hsame] at hrest
  have hquoted := (List.cons.inj (List.append_cancel_left hrest)).2
  obtain ⟨hopcode, hargs⟩ := hp.opcode.legible _ _ _ kp.opcode (.cons (by decide) _) (.cons (by decide) _)
    hquoted
  simp only [List.cons.injEq, true_and] at hargs
  obtain ⟨hargs, hclose⟩ := ValueId.legible_list hp.args _ _ _ kp.args
    ⟨.cons (by decide) _, .cons (by decide) _⟩ ⟨.cons (by decide) _, .cons (by decide) _⟩ hargs
  exact ⟨hresults, opcode_inj hopcode, hargs, (List.cons.inj hclose).2⟩

def attrChars (p : String × Attr) : List Char := p.1.toList ++ '=' :: ([] ++ p.2.chars)

def braces (h : Head) : List Char :=
  if h.attrs.isEmpty then [] else '\x7b' :: (separated [' '] attrChars h.attrs.entries ++ ['\x7d', ' '])

theorem closing_chars (h : Head) :
    h.closing.toList = ' ' :: (h.braces ++ ':' :: ' ' :: '(' :: (separated [' '] Ty.chars h.argTypes ++
      ')' :: ' ' :: '-' :: '>' :: ' ' :: h.resultText.toList)) := by
  have hattr : attrChars = fun p => p.1.toList ++ '=' :: p.2.render.toList := rfl
  unfold closing braces
  split
  · simp [Ty.chars_eq, separated, String.toList_intercalate]
  · simp [Attrs.render, Attrs.map, Ty.chars_eq, separated, String.toList_intercalate, hattr,
      Function.comp_def]

private theorem attrs_legible {entries : List (String × Attr)}
    (plain : ∀ p ∈ entries, IsWord p.1 ∧ p.2.Plain) :
    LegibleAt (fun ps => ∀ p ∈ ps, IsWord p.1 ∧ p.2.Plain) (separated [' '] attrChars) (fun r =>
      StartsIn isStop r ∧ StartsIn (fun c => ! isWordChar c && c != ',') r) entries := by
  refine .list isWordChar [' '] (fun r => .cons (by decide) r) (fun p hp => ?_) plain fun p hp => ?_
  · obtain ⟨c, r, hc, hword⟩ := hp.1.lead
    exact ⟨c, r ++ '=' :: p.2.chars, by simp [attrChars, hc], hword⟩
  · exact .keyed [] (by decide) (plain p hp).1.legible (plain p hp).2.legible

private theorem Plain.braces_inj {h k : Head} (hp : h.Plain) (kp : k.Plain) {r s : List Char}
    (heq : h.braces ++ ':' :: r = k.braces ++ ':' :: s) : h.attrs = k.attrs ∧ r = s := by
  have hcolon : ∀ {g : Head} {x y : List Char}, g.attrs.entries ≠ [] → g.braces ++ x ≠ ':' :: y := by
    intro g x y hne
    simp [braces, Attrs.isEmpty, hne]
  by_cases hnil : h.attrs.entries = [] <;> by_cases knil : k.attrs.entries = []
  · simp only [braces, Attrs.isEmpty, hnil, knil, List.isEmpty_nil, if_true, List.nil_append, List.cons.injEq,
      true_and] at heq
    exact ⟨Attrs.ext (by rw [hnil, knil]), heq⟩
  · exact absurd (by simpa [braces, Attrs.isEmpty, hnil] using heq.symm) (hcolon knil)
  · exact absurd (by simpa [braces, Attrs.isEmpty, knil] using heq) (hcolon hnil)
  · simp only [braces, Attrs.isEmpty, List.isEmpty_iff, hnil, knil, if_false, List.cons_append,
      List.append_assoc, List.cons.injEq, true_and] at heq
    obtain ⟨hattrs, hrest⟩ := attrs_legible hp.attrs _ _ _ kp.attrs
      ⟨.cons (by decide) _, .cons (by decide) _⟩ ⟨.cons (by decide) _, .cons (by decide) _⟩ heq
    simp only [List.cons.injEq, true_and, List.nil_append] at hrest
    exact ⟨Attrs.ext hattrs, hrest⟩

private theorem Plain.resultText_chars {h : Head} (hp : h.Plain) (hne : h.results ≠ []) :
    h.resultText.toList = separated [' '] Ty.chars h.resultTypes := by
  have hne' : h.resultTypes ≠ [] := by
    rw [ne_eq, ← List.length_eq_zero_iff, hp.resultTypes_length, List.length_eq_zero_iff]
    exact hne
  simp [resultText, hne, hne', Ty.chars_eq, separated, String.toList_intercalate]

private theorem Plain.resultText_inj {h k : Head} (hp : h.Plain) (kp : k.Plain)
    (hresults : h.results = k.results)
    {r s : List Char} (hr : StartsIn (· = '\n') r) (hs : StartsIn (· = '\n') s)
    (heq : h.resultText.toList ++ r = k.resultText.toList ++ s) :
    h.resultTypes = k.resultTypes ∧ r = s := by
  by_cases hnil : h.results = []
  · have knil : k.results = [] := by rw [← hresults, hnil]
    have hty : h.resultTypes = [] := List.eq_nil_of_length_eq_zero (by rw [hp.resultTypes_length, hnil]; rfl)
    have kty : k.resultTypes = [] := List.eq_nil_of_length_eq_zero (by rw [kp.resultTypes_length, knil]; rfl)
    simp only [resultText, hnil, knil, List.isEmpty_nil, if_true, List.append_right_inj] at heq
    exact ⟨by rw [hty, kty], heq⟩
  · rw [hp.resultText_chars hnil, kp.resultText_chars (by rwa [← hresults])] at heq
    have hline : ∀ {p : Char → Bool} {l}, p '\n' = true → StartsIn (· = '\n') l → StartsIn p l := by
      intro p l hp hl
      refine hl.mono fun c hc => ?_
      simp only [decide_eq_true_eq] at hc
      rwa [hc]
    exact Ty.legible_list [' '] hp.resultTypes (fun t ht => (hp.resultTypes t ht).legible) _ _ _
      kp.resultTypes ⟨hline (by decide) hr, hline (by decide) hr⟩
      ⟨hline (by decide) hs, hline (by decide) hs⟩ heq

private theorem Plain.closing_inj {h k : Head} (hp : h.Plain) (kp : k.Plain)
    (hresults : h.results = k.results)
    {r s : List Char} (hr : StartsIn (· = '\n') r) (hs : StartsIn (· = '\n') s)
    (heq : h.closing.toList ++ r = k.closing.toList ++ s) :
    h.attrs = k.attrs ∧ h.argTypes = k.argTypes ∧ h.resultTypes = k.resultTypes ∧ r = s := by
  simp only [closing_chars, List.cons_append, List.append_assoc, List.cons.injEq, true_and] at heq
  obtain ⟨hattrs, hrest⟩ := hp.braces_inj kp heq
  simp only [List.cons.injEq, true_and] at hrest
  obtain ⟨hargs, harrow⟩ := Ty.legible_list [' '] hp.argTypes (fun t ht => (hp.argTypes t ht).legible)
    _ _ _ kp.argTypes ⟨.cons (by decide) _, .cons (by decide) _⟩
    ⟨.cons (by decide) _, .cons (by decide) _⟩ hrest
  simp only [List.cons.injEq, true_and] at harrow
  obtain ⟨htypes, hrs⟩ := hp.resultText_inj kp hresults hr hs harrow
  exact ⟨hattrs, hargs, htypes, hrs⟩

end Head

namespace Label

structure Plain (l : Label) : Prop where
  name : IsWord l.name
  params : ∀ p ∈ l.params, p.1.Plain ∧ p.2.Plain

def paramChars (p : ValueId × Ty) : List Char := p.1.chars ++ ':' :: ([' '] ++ p.2.chars)

def chars (l : Label) : List Char := l.render.toList

theorem chars_eq (l : Label) :
    l.chars = l.name.toList ++ '(' :: (separated [' '] paramChars l.params ++ [')', ':']) := by
  have hparam : paramChars = fun p => p.1.text.toList ++ ':' :: ' ' :: p.2.render.toList := rfl
  simp [chars, render, separated, String.toList_intercalate, hparam, Function.comp_def]

private theorem Plain.legible {l : Label} (h : l.Plain) : LegibleAt Plain chars (fun _ => True) l := by
  intro k r s hk _ _ heq
  simp only [chars_eq, List.append_assoc, List.cons_append] at heq
  obtain ⟨hname, hrest⟩ := h.name.legible _ _ _ hk.name (.cons (by decide) _) (.cons (by decide) _) heq
  simp only [List.cons.injEq, true_and] at hrest
  have hparams : LegibleAt (fun ps => ∀ p ∈ ps, p.1.Plain ∧ p.2.Plain) (separated [' '] paramChars)
      (fun r => StartsIn isStop r ∧ StartsIn (fun c => ! isWordChar c && c != ',') r) l.params := by
    refine .list isWordChar [' '] (fun r => .cons (by decide) r) (fun p hp => ?_) h.params fun p hp => ?_
    · obtain ⟨c, t, hc, hword⟩ := IsWord.lead hp.1
      exact ⟨c, t ++ ':' :: ' ' :: p.2.chars, by simp [paramChars, ValueId.chars, hc], hword⟩
    · exact .keyed [' '] (by decide) (h.params p hp).1.legible (h.params p hp).2.legible
  obtain ⟨heqs, hclose⟩ := hparams _ _ _ hk.params ⟨.cons (by decide) _, .cons (by decide) _⟩
    ⟨.cons (by decide) _, .cons (by decide) _⟩ hrest
  simp only [List.cons.injEq, true_and, List.nil_append] at hclose
  exact ⟨by cases l; cases k; simp_all, hclose⟩

end Label

namespace Operator

/-- An operator with a plain line, whose regions are single blocks of plain operators under plain
labels. -/
inductive Plain : Operator → Prop
  | mk {head : Head} {regions : List Region} (line : head.Plain)
      (single : ∀ r ∈ regions, ∃ b, r.blocks = [b])
      (labels : ∀ r ∈ regions, ∀ b ∈ r.blocks, ∀ l ∈ b.label, l.Plain)
      (items : ∀ r ∈ regions, ∀ b ∈ r.blocks, ∀ o ∈ b.items, Plain o) : Plain (mk head regions)

def chars (indent : String) (o : Operator) : List Char := (o.renderAt indent).toList

private def itemChars (indent : String) (items : List Operator) : List Char :=
  (renderItems indent items).toList

def labelChars (indent : String) (label : Option Label) : List Char :=
  label.elim [] fun l => indent.toList ++ (l.chars ++ ['\n'])

def regionChars (indent : String) (r : Region) : List Char :=
  '\x7b' :: '\n' :: ((renderBlocks indent r.blocks).toList ++ (indent.toList ++ ['\x7d']))

def enclosedChars (indent : String) (regions : List Region) : List Char :=
  if regions.isEmpty then [] else ' ' :: '(' :: (separated [' '] (regionChars indent) regions ++ [')'])

private theorem renderRegions_chars (indent : String) (regions : List Region) :
    (renderRegions indent regions).map String.toList = regions.map (regionChars indent) := by
  induction regions with
  | nil => rfl
  | cons r rest ih =>
    obtain ⟨blocks⟩ := r
    simp [renderRegions, ih, regionChars, Region.blocks]

theorem chars_mk (indent : String) (head : Head) (regions : List Region) :
    chars indent (mk head regions) = indent.toList ++
      (head.opening.toList ++ (enclosedChars indent regions ++ head.closing.toList)) := by
  have hregions : (enclosed (renderRegions indent regions)).toList = enclosedChars indent regions := by
    cases regions with
    | nil => rfl
    | cons r rest =>
      have hne : renderRegions indent (r :: rest) ≠ [] := by
        obtain ⟨blocks⟩ := r
        simp [renderRegions]
      simp [enclosed, enclosedChars, hne, String.toList_intercalate, renderRegions_chars, separated]
  simp [chars, renderAt, hregions]

private theorem regionChars_single (indent : String) (label : Option Label) (items : List Operator) :
    regionChars indent (.single label items) = '\x7b' :: '\n' :: (labelChars indent label ++
      (itemChars (indent ++ step) items ++ (indent.toList ++ ['\x7d']))) := by
  cases label <;> simp [regionChars, Region.single, Region.blocks, renderBlocks, labelChars, itemChars,
    Label.chars]

private theorem itemChars_cons (indent : String) (o : Operator) (items : List Operator) :
    itemChars indent (o :: items) = chars indent o ++ '\n' :: itemChars indent items := by
  simp [itemChars, chars, renderItems]

private theorem chars_step (indent : String) (o : Operator) :
    ∃ l, chars (indent ++ step) o = indent.toList ++ ' ' :: l := by
  obtain ⟨head, regions⟩ := o
  have hstep : step.toList = [' ', ' ', ' ', ' '] := by simp [step]
  rw [chars_mk, String.toList_append, List.append_assoc, hstep]
  exact ⟨_, rfl⟩

/-- What stands at the end of a region. -/
private def Closes (indent : String) (r : List Char) : Prop := ∃ l, r = indent.toList ++ '\x7d' :: l

private theorem items_legible {indent : String} {items : List Operator}
    (each : ∀ o ∈ items, LegibleAt Plain (chars (indent ++ step)) (StartsIn (· = '\n')) o) :
    LegibleAt (fun os => ∀ o ∈ os, Plain o) (itemChars (indent ++ step)) (Closes indent) items := by
  have hbrace : ∀ {o os x r}, Closes indent r → r ≠ itemChars (indent ++ step) (o :: os) ++ x := by
    rintro o os x _ ⟨r, rfl⟩ heq
    obtain ⟨l, hl⟩ := chars_step indent o
    rw [itemChars_cons, hl, List.append_assoc, List.append_assoc] at heq
    simpa using List.append_cancel_left heq
  intro os r s hos hr hs heq
  induction items generalizing os with
  | nil =>
    cases os with
    | nil => exact ⟨rfl, heq⟩
    | cons o os => exact absurd heq (hbrace hr)
  | cons o items ih =>
    cases os with
    | nil => exact absurd heq.symm (hbrace hs)
    | cons p os =>
      rw [itemChars_cons, itemChars_cons, List.append_assoc, List.append_assoc] at heq
      obtain ⟨hop, hrest⟩ := each o (by simp) p _ _ (hos p (by simp)) (.cons (by decide) _)
        (.cons (by decide) _) heq
      obtain ⟨hitems, hrs⟩ := ih (fun q hq => each q (by simp [hq])) os
        (fun q hq => hos q (by simp [hq])) (List.cons.inj hrest).2
      exact ⟨by rw [hop, hitems], hrs⟩

/-- A label stands at the indentation, where neither an operator nor the brace has a word. -/
theorem label_inj {indent : String} {label label' : Option Label} (plain : ∀ l ∈ label, l.Plain)
    (plain' : ∀ l ∈ label', l.Plain) {c d : Char} {r s : List Char} (hc : isWordChar c = false)
    (hd : isWordChar d = false)
    (heq : labelChars indent label ++ (indent.toList ++ c :: r) =
      labelChars indent label' ++ (indent.toList ++ d :: s)) :
    label = label' ∧ c :: r = d :: s := by
  have hword : ∀ {l : Label} {e x y}, l.Plain → isWordChar e = false → l.chars ++ x ≠ e :: y := by
    intro l e x y hl he heq
    obtain ⟨f, z, hf, hword⟩ := hl.name.lead
    rw [Label.chars_eq, hf, List.cons_append, List.cons_append, List.cons.injEq] at heq
    rw [heq.1, he] at hword
    cases hword
  cases label with
  | none =>
    cases label' with
    | none => exact ⟨rfl, List.append_cancel_left heq⟩
    | some l' =>
      simp only [labelChars, Option.elim, List.nil_append, List.append_assoc,
        List.append_cancel_left_eq] at heq
      exact absurd heq.symm (hword (plain' l' rfl) hc)
  | some l =>
    cases label' with
    | none =>
      simp only [labelChars, Option.elim, List.nil_append, List.append_assoc,
        List.append_cancel_left_eq] at heq
      exact absurd heq (hword (plain l rfl) hd)
    | some l' =>
      simp only [labelChars, Option.elim, List.append_assoc, List.append_cancel_left_eq] at heq
      obtain ⟨hl, hrest⟩ := (plain l rfl).legible l' _ _ (plain' l' rfl) trivial trivial heq
      exact ⟨by rw [hl], List.append_cancel_left (List.append_cancel_left hrest)⟩

def PlainRegion (r : Region) : Prop :=
  ∃ label items, r = .single label items ∧ (∀ l ∈ label, l.Plain) ∧ ∀ o ∈ items, Plain o

/-- A region ends at the brace that stands at its own indentation. -/
theorem region_legible {indent : String} {label : Option Label} {items : List Operator}
    (plain : ∀ l ∈ label, l.Plain)
    (each : ∀ o ∈ items, LegibleAt Plain (chars (indent ++ step)) (StartsIn (· = '\n')) o) :
    LegibleAt PlainRegion (regionChars indent) (fun _ => True) (.single label items) := by
  have hlead : ∀ (os : List Operator) (r : List Char), ∃ c l, isWordChar c = false ∧
      itemChars (indent ++ step) os ++ (indent.toList ++ '\x7d' :: r) = indent.toList ++ c :: l := by
    intro os r
    cases os with
    | nil => exact ⟨_, _, by decide, rfl⟩
    | cons o os =>
      obtain ⟨l, hl⟩ := chars_step indent o
      exact ⟨' ', _, by decide, by rw [itemChars_cons, hl, List.append_assoc, List.append_assoc]; rfl⟩
  rintro _ r s ⟨label', items', rfl, plain', hitems'⟩ _ _ heq
  simp only [regionChars_single, List.cons_append, List.append_assoc, List.nil_append, List.cons.injEq,
    true_and] at heq
  obtain ⟨c, l, hc, hl⟩ := hlead items r
  obtain ⟨d, k, hd, hk⟩ := hlead items' s
  rw [hl, hk] at heq
  obtain ⟨hlabel, hrest⟩ := label_inj plain plain' hc hd heq
  rw [← List.append_cancel_left_eq indent.toList, ← hl, ← hk] at hrest
  obtain ⟨hitems, hclose⟩ := items_legible each items' _ _ hitems' ⟨r, rfl⟩ ⟨s, rfl⟩ hrest
  exact ⟨by rw [hlabel, hitems], (List.cons.inj (List.append_cancel_left hclose)).2⟩

private theorem closing_lead (h : Head) : ∃ c l, h.closing.toList = ' ' :: c :: l ∧ c ≠ '(' := by
  rw [Head.closing_chars]
  unfold Head.braces
  split
  · exact ⟨_, _, rfl, by decide⟩
  · exact ⟨_, _, rfl, by decide⟩

/-- The regions end where the rest of the operator's line goes on. -/
theorem regions_inj {indent : String} {regions regions' : List Region}
    (plain : ∀ r ∈ regions, PlainRegion r) (plain' : ∀ r ∈ regions', PlainRegion r)
    (each : ∀ r ∈ regions, LegibleAt PlainRegion (regionChars indent) (fun _ => True) r)
    {h k : Head} {x y : List Char} (heq : enclosedChars indent regions ++ (h.closing.toList ++ x) =
      enclosedChars indent regions' ++ (k.closing.toList ++ y)) :
    regions = regions' ∧ h.closing.toList ++ x = k.closing.toList ++ y := by
  have hparen : ∀ {g : Head} {rs u v}, rs ≠ [] → g.closing.toList ++ u ≠ enclosedChars indent rs ++ v := by
    intro g rs u v hne heq
    obtain ⟨c, l, hc, hne'⟩ := closing_lead g
    simp [hc, enclosedChars, hne, hne'] at heq
  by_cases hnil : regions = [] <;> by_cases hnil' : regions' = []
  · simp only [hnil, hnil', List.append_cancel_left_eq] at heq
    exact ⟨by rw [hnil, hnil'], heq⟩
  · exact absurd (by simpa [enclosedChars, hnil] using heq) (hparen hnil')
  · exact absurd (by simpa [enclosedChars, hnil'] using heq.symm) (hparen hnil)
  · simp only [enclosedChars, List.isEmpty_iff, hnil, hnil', if_false, List.cons_append,
      List.append_assoc, List.cons.injEq, true_and] at heq
    obtain ⟨hregions, hrest⟩ := LegibleAt.list (· = '\x7b') [' '] (fun _ => trivial)
      (fun r _ => ⟨_, _, rfl, by decide⟩) plain each regions' _ _ plain'
      ⟨trivial, .cons (by decide) _⟩ ⟨trivial, .cons (by decide) _⟩ heq
    exact ⟨hregions, (List.cons.inj hrest).2⟩

private theorem eq_single_of_blocks {r : Region} {b : Block} (h : r.blocks = [b]) :
    r = .single b.label b.items := by
  cases r
  cases b
  exact congrArg Region.mk h

private theorem Plain.line {head : Head} {regions : List Region} (h : (Operator.mk head regions).Plain) :
    head.Plain ∧ ∀ r ∈ regions, PlainRegion r := by
  cases h with
  | mk line single labels items =>
    refine ⟨line, fun r hr => ?_⟩
    obtain ⟨b, hb⟩ := single r hr
    have hmem : b ∈ r.blocks := by simp [hb]
    exact ⟨b.label, b.items, eq_single_of_blocks hb, labels r hr b hmem, items r hr b hmem⟩

/-- An operator is legible at every indentation, up to the end of its last line. -/
theorem Plain.legible {o : Operator} (h : o.Plain) (indent : String) :
    LegibleAt Plain (chars indent) (StartsIn (· = '\n')) o := by
  induction h generalizing indent with
  | @mk head regions line single labels items ih =>
    have each : ∀ r ∈ regions, LegibleAt PlainRegion (regionChars indent) (fun _ => True) r := by
      intro r hr
      obtain ⟨b, hb⟩ := single r hr
      have hmem : b ∈ r.blocks := by simp [hb]
      rw [eq_single_of_blocks hb]
      exact region_legible (labels r hr b hmem) fun o ho => ih r hr b hmem o ho (indent ++ step)
    rintro ⟨head', regions'⟩ r s hp hr hs heq
    obtain ⟨_, plain⟩ := (Plain.mk line single labels items).line
    obtain ⟨line', plain'⟩ := hp.line
    simp only [chars_mk, List.append_assoc, List.append_cancel_left_eq] at heq
    obtain ⟨hresults, ⟨hdialect, hname⟩, hargs, hrest⟩ := line.opening_inj line' heq
    obtain ⟨hregions, hclosing⟩ := regions_inj plain plain' each hrest
    obtain ⟨hattrs, hargTypes, hresultTypes, hrs⟩ := line.closing_inj line' hresults hr hs hclosing
    have hhead : head = head' := by
      cases head
      cases head'
      simp_all
    exact ⟨by rw [hhead, hregions], hrs⟩

/-- Plain operators have the same text only if they are the same. -/
theorem render_inj_of_plain {o p : Operator} (ho : o.Plain) (hp : p.Plain) :
    o.render = p.render ↔ o = p := by
  constructor
  · intro heq
    have hchars : chars "" o ++ [] = chars "" p ++ [] := by
      rw [List.append_nil, List.append_nil]
      exact congrArg String.toList heq
    exact (ho.legible "" p [] [] hp .nil .nil hchars).1
  · rintro rfl
    rfl

/-- A module whose labelled block holds a constant with the given attributes. -/
def annotatedConstant (attrs : Attrs) : Operator :=
  .mk (.builtin "module") [.single (some ⟨"^entry", [(⟨"%x"⟩, .generic "list" [.unit, .named "int"])]⟩)
    [.mk { (Head.py "constant").withResult ⟨"%0"⟩ .unknown with attrs } []]]

private theorem annotatedConstant_plain {attrs : Attrs}
    (h : ∀ p ∈ attrs.entries, IsWord p.1 ∧ p.2.Plain) :
    (annotatedConstant attrs).Plain := by
  have hlabel : Label.Plain ⟨"^entry", [(⟨"%x"⟩, .generic "list" [.unit, .named "int"])]⟩ := by
    refine ⟨by decide, ?_⟩
    simp only [List.mem_singleton, forall_eq]
    refine ⟨(by decide : IsWord "%x"), .generic (by decide) ?_⟩
    simp only [List.mem_cons, List.not_mem_nil, or_false, forall_eq_or_imp, forall_eq]
    exact ⟨.unit, .named (by decide) (by decide)⟩
  have hconstant : Head.Plain { (Head.py "constant").withResult ⟨"%0"⟩ .unknown with attrs } :=
    { name := (by decide : IsWord "constant")
      results := by simpa [Head.withResult, ValueId.Plain] using (by decide : IsWord "%0")
      resultTypes := by simpa [Head.withResult] using Ty.Plain.unknown
      resultTypes_length := rfl
      args := by simp [Head.withResult, Head.py]
      argTypes := by simp [Head.withResult, Head.py]
      argTypes_length := rfl
      attrs := h }
  have hmodule : Head.Plain (.builtin "module") :=
    { name := (by decide : IsWord "module")
      results := by simp
      resultTypes := by simp [Head.builtin]
      resultTypes_length := rfl
      args := by simp
      argTypes := by simp [Head.builtin]
      argTypes_length := rfl
      attrs := by simp }
  refine .mk hmodule ?_ ?_ ?_ <;>
    simp only [List.mem_singleton, forall_eq, Region.single, Region.blocks, Block.label, Block.items,
      Option.mem_def, Option.some.injEq, forall_eq']
  · exact ⟨_, rfl⟩
  · exact hlabel
  · exact .mk hconstant (by simp) (by simp) (by simp)

/-- An attribute that spells the end of one and the start of another is told from the two. -/
theorem annotatedConstant_told_apart :
    (annotatedConstant ⟨[("a", .text "1\", b=\"2")], by decide⟩).Plain ∧
      (annotatedConstant ⟨[("a", .text "1"), ("b", .text "2")], by decide⟩).Plain ∧
      (annotatedConstant ⟨[("a", .text "1\", b=\"2")], by decide⟩).render ≠
        (annotatedConstant ⟨[("a", .text "1"), ("b", .text "2")], by decide⟩).render := by
  have hone : (annotatedConstant ⟨[("a", .text "1\", b=\"2")], by decide⟩).Plain := by
    apply annotatedConstant_plain
    simp only [List.mem_singleton, forall_eq]
    exact ⟨by decide, .text _⟩
  have htwo : (annotatedConstant ⟨[("a", .text "1"), ("b", .text "2")], by decide⟩).Plain := by
    apply annotatedConstant_plain
    simp only [List.mem_cons, List.not_mem_nil, or_false, forall_eq_or_imp, forall_eq]
    exact ⟨⟨by decide, .text _⟩, by decide, .text _⟩
  refine ⟨hone, htwo, fun heq => ?_⟩
  have hsame := (render_inj_of_plain hone htwo).1 heq
  simp [annotatedConstant, Region.single] at hsame

end Operator

end RegionIR
