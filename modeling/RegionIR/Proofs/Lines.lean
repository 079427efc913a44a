import RegionIR.Proofs.Printing
import RegionIR.Proofs.Walks
/-!
# The lines of a printed program

The text of an operator has a line for every operator below it, one for every label and one for the brace
that ends each region. The lines are planned from the tree alone, and the text is the plan written out as
long as no name holds a line break. Lines that begin an operator come in the order of the walk_mk, so counting
operators by opcode is counting lines.
-/
namespace RegionIR

/-- A line of the text of an operator. -/
inductive TextLine where
  /-- The first line of an operator. -/
  | operator (depth : Nat) (op : Operator)
  | label (depth : Nat) (label : Label)
  /-- The brace that ends a region, with the rest of its line. -/
  | brace (depth : Nat) (rest : List Char)

def indentation (depth : Nat) : List Char := List.replicate (4 * depth) ' '

namespace Head

def lead (h : Head) : List Char :=
  separated [' '] ValueId.chars h.results ++ (h.equals ++ '"' :: (h.opcode.toList ++ ['"']))

end Head

namespace TextLine

def chars : TextLine → List Char
  | operator depth op => indentation depth ++ (op.head.opening.toList ++
      if op.regions.isEmpty then op.head.closing.toList else [' ', '(', '\x7b'])
  | label depth l => indentation depth ++ l.chars
  | brace depth rest => indentation depth ++ '\x7d' :: rest

/-- The operator that a line begins, with its depth. -/
def operator? : TextLine → Option (Nat × Operator)
  | operator depth op => some (depth, op)
  | _ => none

end TextLine

namespace Operator

mutual

/-- The lines of an operator that stands at the given depth. -/
def lines (depth : Nat) : Operator → List TextLine
  | mk head regions =>
    .operator depth (mk head regions) :: regionLines depth head.closing.toList regions
termination_by structural o => o

/-- The lines of the regions of an operator, up to its last one, which ends in the given text. -/
def regionLines (depth : Nat) (closing : List Char) : List Region → List TextLine
  | [] => []
  | .mk blocks :: rest =>
    blockLines depth blocks ++
      .brace depth (if rest.isEmpty then ')' :: closing else [',', ' ', '\x7b']) ::
        regionLines depth closing rest
termination_by structural rs => rs

def blockLines (depth : Nat) : List Block → List TextLine
  | [] => []
  | .mk label items :: rest =>
    label.toList.map (.label depth) ++ itemLines (depth + 1) items ++ blockLines depth rest
termination_by structural bs => bs

def itemLines (depth : Nat) : List Operator → List TextLine
  | [] => []
  | op :: rest => lines depth op ++ itemLines depth rest
termination_by structural os => os

end

end Operator

def Walk.depths : Walk Nat (Nat × Operator) where
  atOperator depth op := [(depth, op)]
  inside depth _ := depth + 1

/-- The walk through an operator, with the depth at which each operator stands. -/
def Operator.walkAt (depth : Nat) (o : Operator) : List (Nat × Operator) := Walk.depths.operator depth o

private theorem Operator.walkAt_mk (depth : Nat) (head : Head) (regions : List Region) :
    walkAt depth (.mk head regions) = (depth, .mk head regions) :: Walk.depths.regions (depth + 1) regions :=
  rfl

namespace Walk

private theorem depths_cons (depth : Nat) (op : Operator) (rest : List Operator) :
    depths.items depth (op :: rest) = op.walkAt depth ++ depths.items depth rest := rfl

private theorem depths_regions (depth : Nat) (blocks : List Block) (rest : List Region) :
    depths.regions depth (.mk blocks :: rest) = depths.blocks depth blocks ++ depths.regions depth rest := rfl

private theorem depths_blocks (depth : Nat) (label : Option Label) (items : List Operator)
    (rest : List Block) :
    depths.blocks depth (.mk label items :: rest) = depths.items depth items ++ depths.blocks depth rest := by
  cases label <;> rfl

private theorem depths_give_operators : Gives depths operators (fun _ => ()) fun q => [q.2] where
  atOperator _ _ := rfl
  atRegion _ _ := rfl
  atLabel _ _ := rfl
  enters _ := rfl
  inside _ _ := rfl
  within _ _ := rfl
  past _ _ := rfl

end Walk

namespace Operator

def blocks (o : Operator) : List Block := o.regions.flatMap Region.blocks

def labels (o : Operator) : List Label := o.blocks.filterMap Block.label

private theorem filterMap_label_cons (label : Option Label) (items : List Operator) (rest : List Block) :
    (Block.mk label items :: rest).filterMap Block.label = label.toList ++ rest.filterMap Block.label := by
  cases label <;> rfl

end Operator

def ended (ls : List TextLine) : List Char := ls.flatMap fun l => l.chars ++ ['\n']

@[simp] theorem ended_nil : ended [] = [] := rfl

@[simp] theorem ended_cons (l : TextLine) (ls : List TextLine) :
    ended (l :: ls) = l.chars ++ '\n' :: ended ls := by
  simp [ended]

@[simp] theorem ended_append (ls ks : List TextLine) : ended (ls ++ ks) = ended ls ++ ended ks := by
  simp [ended]

private theorem ended_eq_intercalate {ls : List TextLine} (hne : ls ≠ []) :
    ended ls = ['\n'].intercalate (ls.map TextLine.chars) ++ ['\n'] := by
  induction ls with
  | nil => exact absurd rfl hne
  | cons l ls ih =>
    cases ls with
    | nil => simp
    | cons k ks =>
      rw [ended_cons, ih (by simp)]
      simp [List.intercalate_cons_cons]

private theorem indentation_succ (depth : Nat) :
    indentation (depth + 1) = indentation depth ++ Operator.step.toList := by
  have hstep : Operator.step.toList = List.replicate 4 ' ' := by simp [Operator.step]
  rw [hstep, indentation, indentation, List.replicate_append_replicate, Nat.mul_succ]

namespace Operator

mutual

theorem ended_lines : (o : Operator) → ∀ {indent : String} {depth : Nat},
    indent.toList = indentation depth → chars indent o ++ ['\n'] = ended (lines depth o)
  | .mk head [], indent, depth, hindent => by
    simp [chars_mk, lines, regionLines, TextLine.chars, enclosedChars, Operator.head, Operator.regions,
      hindent]
  | .mk head (r :: rest), indent, depth, hindent => by
    have hregions := ended_regionLines (r :: rest) head.closing.toList (by simp) hindent
    rw [chars_mk, lines, ended_cons]
    simp only [enclosedChars, TextLine.chars, Operator.head, Operator.regions, List.isEmpty_cons,
      Bool.false_eq_true, if_false, List.append_assoc, List.cons_append, List.nil_append, hindent,
      hregions]

theorem ended_regionLines : (rs : List Region) → ∀ (closing : List Char) {indent : String} {depth : Nat},
    rs ≠ [] → indent.toList = indentation depth →
    separated [' '] (regionChars indent) rs ++ ')' :: (closing ++ ['\n']) =
      '\x7b' :: '\n' :: ended (regionLines depth closing rs)
  | [], _, _, _, hne, _ => absurd rfl hne
  | [.mk blocks], closing, indent, depth, _, hindent => by
    have hblocks := ended_blockLines blocks hindent
    simp [separated, regionChars, Region.blocks, regionLines, TextLine.chars, hblocks, hindent]
  | .mk blocks :: r :: rest, closing, indent, depth, _, hindent => by
    have hblocks := ended_blockLines blocks hindent
    have hrest := ended_regionLines (r :: rest) closing (by simp) hindent
    rw [separated_cons, continued, regionLines, ended_append, ended_cons, ← hblocks]
    simp only [regionChars, Region.blocks, TextLine.chars, List.append_assoc, List.cons_append,
      List.nil_append, hindent, hrest, List.isEmpty_cons, Bool.false_eq_true, if_false]

theorem ended_blockLines : (bs : List Block) → ∀ {indent : String} {depth : Nat},
    indent.toList = indentation depth → (renderBlocks indent bs).toList = ended (blockLines depth bs)
  | [], _, _, _ => rfl
  | .mk label items :: rest, indent, depth, hindent => by
    have hstep : (indent ++ step).toList = indentation (depth + 1) := by
      rw [String.toList_append, hindent, indentation_succ]
    have hitems := ended_itemLines items hstep
    have hrest := ended_blockLines rest hindent
    cases label <;> simp [renderBlocks, blockLines, hitems, hrest, TextLine.chars, Label.chars, hindent]

theorem ended_itemLines : (os : List Operator) → ∀ {indent : String} {depth : Nat},
    indent.toList = indentation depth → (renderItems indent os).toList = ended (itemLines depth os)
  | [], _, _, _ => rfl
  | o :: rest, indent, depth, hindent => by
    have ho := ended_lines o hindent
    have hrest := ended_itemLines rest hindent
    rw [itemLines, ended_append, ← ho, ← hrest]
    simp [renderItems, chars]

end

private theorem lines_ne_nil (depth : Nat) (o : Operator) : lines depth o ≠ [] := by
  obtain ⟨head, regions⟩ := o
  simp [lines]

/-- The text of an operator is its lines with line breaks between them. -/
theorem render_eq_intercalate (o : Operator) :
    o.render.toList = ['\n'].intercalate ((o.lines 0).map TextLine.chars) := by
  have h : chars "" o ++ ['\n'] = ended (lines 0 o) := ended_lines o rfl
  rw [ended_eq_intercalate (lines_ne_nil 0 o)] at h
  exact List.append_cancel_right h

end Operator

/-- No word in the list holds a line break. -/
def Unbroken (words : List String) : Prop := ∀ w ∈ words, '\n' ∉ w.toList

instance (words : List String) : Decidable (Unbroken words) :=
  inferInstanceAs (Decidable (∀ w ∈ words, _))

theorem Unbroken.mono {words others : List String} (h : Unbroken words) (hsub : others ⊆ words) :
    Unbroken others :=
  fun w hw => h w (hsub hw)

private theorem not_mem_separated {α : Type} {c : Char} {gap : List Char} {text : α → List Char}
    {xs : List α}
    (hcomma : c ≠ ',') (hgap : c ∉ gap) (each : ∀ x ∈ xs, c ∉ text x) : c ∉ separated gap text xs := by
  induction xs with
  | nil => simp [separated]
  | cons x xs ih =>
    have hrest := ih fun y hy => each y (List.mem_cons_of_mem _ hy)
    rw [separated_cons, List.mem_append, not_or]
    refine ⟨each x List.mem_cons_self, ?_⟩
    cases xs with
    | nil => simp [continued]
    | cons y ys => simp [continued, hcomma, hgap, hrest]

private theorem ne_newline_of_isDigit {c : Char} (h : c.isDigit = true) : c ≠ '\n' := by
  rintro rfl
  exact absurd h (by decide)

namespace Decimal

private theorem newline_not_mem_toDigits (n : Nat) : '\n' ∉ Nat.toDigits 10 n :=
  fun h => ne_newline_of_isDigit (Nat.isDigit_of_mem_toDigits (by decide) (by decide) h) rfl

private theorem mem_of_mem_stripZeros {c : Char} {ds : List Char} (h : c ∈ stripZeros ds) : c ∈ ds := by
  rw [stripZeros, List.mem_reverse] at h
  exact List.mem_reverse.1 ((List.dropWhile_sublist _).subset h)

private theorem newline_not_mem_positional {ds : List Char} (h : '\n' ∉ ds) (e : Int) :
    '\n' ∉ positional ds e := by
  have htake : ∀ n, '\n' ∉ ds.take n := fun n hn => h (List.mem_of_mem_take hn)
  have hdrop : ∀ n, '\n' ∉ ds.drop n := fun n hn => h (List.mem_of_mem_drop hn)
  unfold positional
  split
  · simp [h]
  · have hfraction : '\n' ∉ if (ds.drop (e.toNat + 1)).isEmpty then ['0'] else ds.drop (e.toNat + 1) := by
      split
      · simp
      · exact hdrop _
    simp only [List.mem_append, not_or]
    exact ⟨⟨⟨htake _, by simp⟩, by simp⟩, hfraction⟩

private theorem newline_not_mem_scientific (plus : Bool) {ds : List Char} (h : '\n' ∉ ds) (e : Int) :
    '\n' ∉ scientific plus ds e := by
  have htake : '\n' ∉ ds.take 1 := fun hn => h (List.mem_of_mem_take hn)
  have hdrop : '\n' ∉ ds.drop 1 := fun hn => h (List.mem_of_mem_drop hn)
  have hfraction : '\n' ∉ if ds.length ≤ 1 then [] else '.' :: ds.drop 1 := by
    split
    · simp
    · simpa using hdrop
  have hsign : '\n' ∉ if e < 0 then ['-'] else if plus then ['+'] else [] := by
    split
    · simp
    · split <;> simp
  simp only [scientific, List.mem_append, not_or]
  exact ⟨⟨⟨⟨htake, hfraction⟩, by simp⟩, hsign⟩, newline_not_mem_toDigits _⟩

private theorem newline_not_mem_text (layout : Layout) (x : Binary64) :
    '\n' ∉ (layout.text x).toList := by
  have hdigits : '\n' ∉ layout.digits x := by
    have hstripped : ∀ n, '\n' ∉ stripZeros (Nat.toDigits 10 n) :=
      fun n h => newline_not_mem_toDigits n (mem_of_mem_stripZeros h)
    simp only [Layout.digits]
    split
    · exact newline_not_mem_positional (hstripped _) _
    · exact newline_not_mem_scientific _ (hstripped _) _
  unfold Layout.text
  split
  · decide
  · rw [String.toList_ofList]
    split_ifs <;> simp [hdigits]

end Decimal

namespace Ty

mutual

def words : Ty → List String
  | unit => []
  | named name => [name]
  | generic ctor args => ctor :: wordsAll args
  | unknown => []
termination_by structural t => t

def wordsAll : List Ty → List String
  | [] => []
  | t :: rest => words t ++ wordsAll rest
termination_by structural ts => ts

end

mutual

theorem newline_not_mem_chars : (t : Ty) → Unbroken t.words → '\n' ∉ t.chars
  | unit, _ => by decide
  | named name, h => by
    have hname := h name (by simp [words])
    simpa [chars, render] using hname
  | generic ctor args, h => by
    have hctor := h ctor (by simp [words])
    have hargs := newline_not_mem_charsAll args (h.mono (by simp [words]))
    rw [chars_of_ne_unit (by simp)]
    simpa [stem, tail, hctor] using not_mem_separated (by decide) (by simp) hargs
  | unknown, _ => by decide

theorem newline_not_mem_charsAll : (ts : List Ty) → Unbroken (wordsAll ts) → ∀ t ∈ ts, '\n' ∉ t.chars
  | [], _ => by simp
  | t :: rest, h => by
    have ht := newline_not_mem_chars t (h.mono (by simp [wordsAll]))
    have hrest := newline_not_mem_charsAll rest (h.mono (by simp [wordsAll]))
    simpa [ht] using hrest

end

end Ty

namespace Attr

mutual

/-- The digits and type names of an attribute. Texts are not among them: their breaks are escaped. -/
def words : Attr → List String
  | bigInt digits => [digits]
  | list items => wordsAll items
  | functionType params result => params.flatMap Ty.words ++ result.words
  | _ => []
termination_by structural a => a

def wordsAll : List Attr → List String
  | [] => []
  | a :: rest => words a ++ wordsAll rest
termination_by structural as => as

end

private theorem newline_not_mem_escapedChar (c : Char) : '\n' ∉ escapedChar c := by
  unfold escapedChar
  split_ifs with _ _ hbreak
  all_goals simp_all [eq_comm]

mutual

theorem newline_not_mem_chars : (a : Attr) → Unbroken a.words → '\n' ∉ a.chars
  | text s, _ => by
    have hs : '\n' ∉ s.toList.flatMap escapedChar := by
      intro h
      obtain ⟨c, _, hc⟩ := List.mem_flatMap.1 h
      exact newline_not_mem_escapedChar c hc
    simpa [chars_text] using hs
  | int n, _ => by
    obtain ⟨sign, k, hn, hsign⟩ := toString_int n
    rw [chars, render, hn, List.mem_append, not_or]
    exact ⟨fun h => absurd (hsign _ h) (by decide),
      fun h => ne_newline_of_isDigit (isDigit_of_mem_repr h) rfl⟩
  | bigInt digits, h => h digits (by simp [words])
  | float x, _ => Decimal.newline_not_mem_text .literal x
  | bool b, _ => by cases b <;> decide
  | unit, _ => by decide
  | list items, h => by
    have hitems := newline_not_mem_charsAll items (h.mono (by simp [words]))
    simpa [chars_list] using not_mem_separated (by decide) (by decide) hitems
  | functionType params result, h => by
    have hparams : ∀ t ∈ params, '\n' ∉ t.chars := fun t ht =>
      t.newline_not_mem_chars fun w hw => h w (by
        simp only [words, List.mem_append, List.mem_flatMap]
        exact .inl ⟨t, ht, hw⟩)
    have hresult := result.newline_not_mem_chars (h.mono (by simp [words]))
    simpa [chars_functionType, hresult] using not_mem_separated (by decide) (by decide) hparams

theorem newline_not_mem_charsAll : (as : List Attr) → Unbroken (wordsAll as) → ∀ a ∈ as, '\n' ∉ a.chars
  | [], _ => by simp
  | a :: rest, h => by
    have ha := newline_not_mem_chars a (h.mono (by simp [wordsAll]))
    have hrest := newline_not_mem_charsAll rest (h.mono (by simp [wordsAll]))
    simpa [ha] using hrest

end

end Attr

namespace Head

def words (h : Head) : List String :=
  h.name :: (h.results ++ h.args).map ValueId.text ++
    ((h.resultTypes ++ h.argTypes).flatMap Ty.words ++ h.attrs.entries.flatMap fun p => p.1 :: p.2.words)

variable {h : Head}

private theorem newline_not_mem_opening (hw : Unbroken h.words) : '\n' ∉ h.opening.toList := by
  have hvalues : ∀ vs, vs ⊆ h.results ++ h.args → '\n' ∉ separated [' '] ValueId.chars vs := by
    intro vs hvs
    refine not_mem_separated (by decide) (by decide) fun v hv => hw v.text ?_
    simp only [words, List.mem_append, List.mem_cons, List.mem_map]
    exact .inl (.inr ⟨v, List.mem_append.1 (hvs hv), rfl⟩)
  have hequals : '\n' ∉ h.equals := by
    unfold equals
    split <;> decide
  have hopcode : '\n' ∉ h.opcode.toList := by
    have hname := hw h.name (by simp [words])
    have hdialect : '\n' ∉ h.dialect.text.toList := by cases h.dialect <;> decide
    simp [opcode, hname, hdialect]
  simp [opening_chars, hvalues _ (List.subset_append_left _ _), hvalues _ (List.subset_append_right _ _),
    hequals, hopcode]

private theorem newline_not_mem_closing (hw : Unbroken h.words) : '\n' ∉ h.closing.toList := by
  have htypes : ∀ ts, ts ⊆ h.resultTypes ++ h.argTypes → '\n' ∉ separated [' '] Ty.chars ts := by
    intro ts hts
    refine not_mem_separated (by decide) (by decide) fun t ht => t.newline_not_mem_chars fun w hword => ?_
    refine hw w ?_
    simp only [words, List.mem_append, List.mem_flatMap]
    exact .inr (.inl ⟨t, List.mem_append.1 (hts ht), hword⟩)
  have hattrs : '\n' ∉ separated [' '] attrChars h.attrs.entries := by
    refine not_mem_separated (by decide) (by decide) fun p hp => ?_
    have hmem : ∀ w ∈ p.1 :: p.2.words, '\n' ∉ w.toList := fun w hword => hw w (by
      simp only [words, List.mem_append, List.mem_flatMap]
      exact .inr (.inr ⟨p, hp, hword⟩))
    have hkey := hmem p.1 List.mem_cons_self
    have hvalue := p.2.newline_not_mem_chars fun w hword => hmem w (List.mem_cons_of_mem _ hword)
    simp [attrChars, hkey, hvalue]
  have hbraces : '\n' ∉ h.braces := by
    unfold braces
    split
    · simp
    · simp [hattrs]
  have hresults : '\n' ∉ h.resultText.toList := by
    have hunknown : '\n' ∉ separated [' '] (fun _ : ValueId => Ty.unknown.chars) h.results :=
      not_mem_separated (by decide) (by decide) fun _ _ => by decide
    have hknown := htypes _ (List.subset_append_left _ _)
    unfold resultText
    split
    · decide
    · split
      · simpa [String.toList_intercalate, separated, Ty.chars] using hunknown
      · simpa [String.toList_intercalate, separated, Ty.chars_eq] using hknown
  simp [closing_chars, hbraces, hresults, htypes _ (List.subset_append_right _ _)]

end Head

namespace Label

def words (l : Label) : List String := l.name :: l.params.flatMap fun p => p.1.text :: p.2.words

private theorem newline_not_mem_chars {l : Label} (hw : Unbroken l.words) : '\n' ∉ l.chars := by
  have hname := hw l.name (by simp [words])
  have hparams : '\n' ∉ separated [' '] paramChars l.params := by
    refine not_mem_separated (by decide) (by decide) fun p hp => ?_
    have hmem : ∀ w ∈ p.1.text :: p.2.words, '\n' ∉ w.toList := fun w hword => hw w (by
      simp only [words, List.mem_cons, List.mem_flatMap]
      exact .inr ⟨p, hp, List.mem_cons.1 hword⟩)
    have hvalue : '\n' ∉ p.1.chars := hmem _ List.mem_cons_self
    have htype := p.2.newline_not_mem_chars fun w hword => hmem w (List.mem_cons_of_mem _ hword)
    simp [paramChars, hvalue, htype]
  simp [chars_eq, hname, hparams]

end Label

namespace Operator

def words (o : Operator) : List String := o.head.words ++ o.labels.flatMap Label.words

/-- No name that is printed below an operator holds a line break. -/
def OneLined (o : Operator) : Prop := ∀ p ∈ o.walk, Unbroken p.words

mutual

theorem newline_not_mem_lines (depth : Nat) : (o : Operator) → o.OneLined →
    ∀ l ∈ lines depth o, '\n' ∉ l.chars
  | .mk head regions, h => by
    have hhead : Unbroken (mk head regions).words := h _ (by simp [walk_mk])
    have hopening := Head.newline_not_mem_opening (hhead.mono (List.subset_append_left _ _))
    have hclosing := Head.newline_not_mem_closing (hhead.mono (List.subset_append_left _ _))
    have hindent : '\n' ∉ indentation depth := by simp [indentation]
    have hfirst : '\n' ∉ (TextLine.operator depth (mk head regions)).chars := by
      simp only [TextLine.chars, List.mem_append, not_or]
      refine ⟨hindent, hopening, ?_⟩
      split
      · exact hclosing
      · decide
    have hregions := newline_not_mem_regionLines depth hclosing regions
      (hhead.mono (List.subset_append_right _ _))
      (fun p hp => h p (by simp [walk_mk, hp]))
    rw [lines, List.forall_mem_cons]
    exact ⟨hfirst, hregions⟩

theorem newline_not_mem_regionLines (depth : Nat) {closing : List Char} (hclosing : '\n' ∉ closing) :
    (rs : List Region) → Unbroken (((rs.flatMap Region.blocks).filterMap Block.label).flatMap Label.words) →
    (∀ p ∈ Walk.operators.regions () rs, Unbroken p.words) →
    ∀ l ∈ regionLines depth closing rs, '\n' ∉ l.chars
  | [], _, _ => by simp [regionLines]
  | .mk blocks :: rest, hlabels, h => by
    have hblocks := newline_not_mem_blockLines depth blocks (hlabels.mono (by simp [Region.blocks]))
      fun p hp => h p (by simp [Walk.operators_regions, hp])
    have hrest := newline_not_mem_regionLines depth hclosing rest (hlabels.mono (by simp))
      fun p hp => h p (by simp [Walk.operators_regions, hp])
    have hbrace : '\n' ∉ (TextLine.brace depth
        (if rest.isEmpty then ')' :: closing else [',', ' ', '\x7b'])).chars := by
      split <;> simp [TextLine.chars, indentation, hclosing]
    rw [regionLines]
    simp only [List.mem_append, List.mem_cons]
    rintro l (hl | rfl | hl)
    · exact hblocks l hl
    · exact hbrace
    · exact hrest l hl

theorem newline_not_mem_blockLines (depth : Nat) :
    (bs : List Block) → Unbroken ((bs.filterMap Block.label).flatMap Label.words) →
    (∀ p ∈ Walk.operators.blocks () bs, Unbroken p.words) → ∀ l ∈ blockLines depth bs, '\n' ∉ l.chars
  | [], _, _ => by simp [blockLines]
  | .mk label items :: rest, hlabels, h => by
    have hitems := newline_not_mem_itemLines (depth + 1) items fun p hp =>
      h p (by simp [Walk.operators_blocks, hp])
    rw [filterMap_label_cons, List.flatMap_append] at hlabels
    have hrest := newline_not_mem_blockLines depth rest (hlabels.mono (List.subset_append_right _ _))
      fun p hp => h p (by simp [Walk.operators_blocks, hp])
    have hlabel : ∀ l ∈ label, '\n' ∉ (TextLine.label depth l).chars := by
      rintro l rfl
      have hl := Label.newline_not_mem_chars (hlabels.mono (by simp) : Unbroken l.words)
      simp [TextLine.chars, indentation, hl]
    rw [blockLines]
    simp only [List.mem_append, List.mem_map, Option.mem_toList]
    rintro l ((⟨k, hk, rfl⟩ | hl) | hl)
    · exact hlabel k hk
    · exact hitems l hl
    · exact hrest l hl

theorem newline_not_mem_itemLines (depth : Nat) : (os : List Operator) →
    (∀ p ∈ Walk.operators.items () os, Unbroken p.words) → ∀ l ∈ itemLines depth os, '\n' ∉ l.chars
  | [], _ => by simp [itemLines]
  | o :: rest, h => by
    have ho := newline_not_mem_lines depth o fun p hp => h p (by simp [Walk.operators_cons, hp])
    have hrest := newline_not_mem_itemLines depth rest fun p hp => h p (by simp [Walk.operators_cons, hp])
    rw [itemLines]
    simp only [List.mem_append]
    rintro l (hl | hl)
    · exact ho l hl
    · exact hrest l hl

end

/-- Splitting the text at its line breaks gives the planned lines back. -/
theorem splitOn_render {o : Operator} (h : o.OneLined) :
    o.render.toList.splitOn '\n' = (o.lines 0).map TextLine.chars := by
  rw [render_eq_intercalate, List.splitOn_intercalate]
  · rintro l hl
    obtain ⟨line, hline, rfl⟩ := List.mem_map.1 hl
    exact newline_not_mem_lines 0 o h line hline
  · simpa using lines_ne_nil 0 o

private theorem map_snd_walkAt (depth : Nat) (o : Operator) :
    (walkAt depth o).map Prod.snd = o.walk := by
  rw [List.map_eq_flatMap]
  exact Walk.depths_give_operators.operator depth o

mutual

theorem operators_lines (depth : Nat) : (o : Operator) →
    (lines depth o).filterMap TextLine.operator? = walkAt depth o
  | .mk head regions => by
    rw [lines, walkAt_mk, ← operators_regionLines]
    rfl

theorem operators_regionLines (depth : Nat) (closing : List Char) : (rs : List Region) →
    (regionLines depth closing rs).filterMap TextLine.operator? = Walk.depths.regions (depth + 1) rs
  | [] => rfl
  | .mk blocks :: rest => by
    rw [regionLines, Walk.depths_regions, List.filterMap_append, List.filterMap_cons_none rfl,
      operators_blockLines, operators_regionLines]

theorem operators_blockLines (depth : Nat) : (bs : List Block) →
    (blockLines depth bs).filterMap TextLine.operator? = Walk.depths.blocks (depth + 1) bs
  | [] => rfl
  | .mk label items :: rest => by
    have hlabel : (label.toList.map (TextLine.label depth)).filterMap TextLine.operator? = [] := by
      cases label <;> rfl
    rw [blockLines, Walk.depths_blocks, List.filterMap_append, List.filterMap_append, hlabel, List.nil_append,
      operators_itemLines, operators_blockLines]

theorem operators_itemLines (depth : Nat) : (os : List Operator) →
    (itemLines depth os).filterMap TextLine.operator? = Walk.depths.items depth os
  | [] => rfl
  | o :: rest => by
    rw [itemLines, Walk.depths_cons, List.filterMap_append, operators_lines, operators_itemLines]

end

/-- The lines that operators take: one for each of them, for each of their regions and for each label. -/
def lineCount (os : List Operator) : Nat :=
  os.length + (os.flatMap Operator.regions).length + (os.flatMap Operator.labels).length

private theorem lineCount_append (os ps : List Operator) :
    lineCount (os ++ ps) = lineCount os + lineCount ps := by
  simp only [lineCount, List.length_append, List.flatMap_append]
  omega

mutual

theorem length_lines (depth : Nat) : (o : Operator) → (lines depth o).length = lineCount o.walk
  | .mk head regions => by
    have hregions := length_regionLines depth head.closing.toList regions
    simp only [lines, walk_mk, lineCount, List.length_cons, List.flatMap_cons, List.length_append,
      Operator.regions, Operator.labels, Operator.blocks] at hregions ⊢
    omega

theorem length_regionLines (depth : Nat) (closing : List Char) : (rs : List Region) →
    (regionLines depth closing rs).length = rs.length +
      ((rs.flatMap Region.blocks).filterMap Block.label).length + lineCount (Walk.operators.regions () rs)
  | [] => rfl
  | .mk blocks :: rest => by
    have hblocks := length_blockLines depth blocks
    have hrest := length_regionLines depth closing rest
    simp only [regionLines, Walk.operators_regions, lineCount_append, List.length_cons, List.flatMap_cons,
      List.length_append, List.filterMap_append, Region.blocks]
    omega

theorem length_blockLines (depth : Nat) : (bs : List Block) →
    (blockLines depth bs).length =
      (bs.filterMap Block.label).length + lineCount (Walk.operators.blocks () bs)
  | [] => rfl
  | .mk label items :: rest => by
    have hitems := length_itemLines (depth + 1) items
    have hrest := length_blockLines depth rest
    simp only [blockLines, Walk.operators_blocks, lineCount_append, List.length_append, List.length_map,
      filterMap_label_cons]
    omega

theorem length_itemLines (depth : Nat) : (os : List Operator) →
    (itemLines depth os).length = lineCount (Walk.operators.items () os)
  | [] => rfl
  | o :: rest => by
    rw [itemLines, Walk.operators_cons, lineCount_append, List.length_append, length_lines depth o,
      length_itemLines depth rest]

end

/-- The lines of a labelled block of an operator at the given depth. -/
def labelledLines (depth : Nat) (l : Label) (items : List Operator) : List TextLine :=
  .label depth l :: itemLines (depth + 1) items

/-- Every label among the lines stands right before the lines of a block that is owned by an operator at
the same depth. -/
def LabelsLead (owned : Nat → Label → List Operator → Prop) (ls : List TextLine) : Prop :=
  ∀ depth l after, .label depth l :: after <:+ ls →
    ∃ items, owned depth l items ∧ labelledLines depth l items <+: .label depth l :: after

namespace LabelsLead

variable {owned : Nat → Label → List Operator → Prop} {ls ks : List TextLine}

theorem nil : LabelsLead owned [] := by
  intro depth l after h
  simp at h

theorem append (hls : LabelsLead owned ls) (hks : LabelsLead owned ks) : LabelsLead owned (ls ++ ks) := by
  intro depth l after h
  rcases List.suffix_or_suffix_of_suffix h (List.suffix_append ls ks) with h' | ⟨front, hfront⟩
  · exact hks depth l after h'
  · cases front with
    | nil =>
      rw [List.nil_append] at hfront
      exact hks depth l after (hfront ▸ List.suffix_rfl)
    | cons line front =>
      rw [List.cons_append, List.cons.injEq] at hfront
      obtain ⟨rfl, rfl⟩ := hfront
      rw [← List.cons_append] at h
      obtain ⟨items, howned, hlines⟩ := hls depth l front ((List.suffix_append_inj_of_length_eq rfl).1 h).1
      exact ⟨items, howned, hlines.trans (by simp)⟩

theorem cons {line : TextLine} (hline : ∀ depth l, line ≠ .label depth l) (h : LabelsLead owned ls) :
    LabelsLead owned (line :: ls) := by
  intro depth l after hsuffix
  rcases List.suffix_cons_iff.1 hsuffix with heq | hsuffix
  · exact absurd (List.cons.inj heq).1.symm (hline depth l)
  · exact h depth l after hsuffix

private theorem label {depth : Nat} {l : Label} {items : List Operator} (howned : owned depth l items)
    (hitems : LabelsLead owned (itemLines (depth + 1) items)) :
    LabelsLead owned (labelledLines depth l items) := by
  intro depth' l' after hsuffix
  rcases List.suffix_cons_iff.1 hsuffix with heq | hsuffix
  · obtain ⟨rfl, rfl⟩ := TextLine.label.inj (List.cons.inj heq).1
    exact ⟨items, howned, heq ▸ List.prefix_rfl⟩
  · exact hitems depth' l' after hsuffix

end LabelsLead

mutual

theorem labelsLead_lines {owned : Nat → Label → List Operator → Prop} (depth : Nat) : (o : Operator) →
    (∀ q ∈ walkAt depth o, ∀ l items, .mk (some l) items ∈ q.2.blocks → owned q.1 l items) →
    LabelsLead owned (lines depth o)
  | .mk head regions, h => by
    rw [lines]
    exact .cons (by simp) (labelsLead_regionLines depth head.closing.toList regions
      (h (depth, mk head regions) (by simp [walkAt_mk])) fun q hq => h q (by simp [walkAt_mk, hq]))

theorem labelsLead_regionLines {owned : Nat → Label → List Operator → Prop} (depth : Nat)
    (closing : List Char) : (rs : List Region) →
    (∀ l items, .mk (some l) items ∈ rs.flatMap Region.blocks → owned depth l items) →
    (∀ q ∈ Walk.depths.regions (depth + 1) rs, ∀ l items, .mk (some l) items ∈ q.2.blocks →
      owned q.1 l items) →
    LabelsLead owned (regionLines depth closing rs)
  | [], _, _ => .nil
  | .mk blocks :: rest, howned, h => by
    have hblocks := labelsLead_blockLines depth blocks
      (fun l items hb => howned l items (by simp [Region.blocks, hb]))
      fun q hq => h q (by simp [Walk.depths_regions, hq])
    have hrest := labelsLead_regionLines depth closing rest
      (fun l items hb => howned l items (List.mem_append_right _ hb))
      fun q hq => h q (by simp [Walk.depths_regions, hq])
    rw [regionLines]
    exact hblocks.append (hrest.cons (by simp))

theorem labelsLead_blockLines {owned : Nat → Label → List Operator → Prop} (depth : Nat) :
    (bs : List Block) → (∀ l items, .mk (some l) items ∈ bs → owned depth l items) →
    (∀ q ∈ Walk.depths.blocks (depth + 1) bs, ∀ l items, .mk (some l) items ∈ q.2.blocks →
      owned q.1 l items) →
    LabelsLead owned (blockLines depth bs)
  | [], _, _ => .nil
  | .mk none items :: rest, howned, h => by
    have hitems := labelsLead_itemLines (depth + 1) items fun q hq => h q (by simp [Walk.depths_blocks, hq])
    have hrest := labelsLead_blockLines depth rest
      (fun l items hb => howned l items (List.mem_cons_of_mem _ hb))
      fun q hq => h q (by simp [Walk.depths_blocks, hq])
    exact hitems.append hrest
  | .mk (some l) items :: rest, howned, h => by
    have hitems := labelsLead_itemLines (depth + 1) items fun q hq => h q (by simp [Walk.depths_blocks, hq])
    have hrest := labelsLead_blockLines depth rest
      (fun l items hb => howned l items (List.mem_cons_of_mem _ hb))
      fun q hq => h q (by simp [Walk.depths_blocks, hq])
    exact (LabelsLead.label (howned l items List.mem_cons_self) hitems).append hrest

theorem labelsLead_itemLines {owned : Nat → Label → List Operator → Prop} (depth : Nat) :
    (os : List Operator) →
    (∀ q ∈ Walk.depths.items depth os, ∀ l items, .mk (some l) items ∈ q.2.blocks → owned q.1 l items) →
    LabelsLead owned (itemLines depth os)
  | [], _ => .nil
  | o :: rest, h => by
    have ho := labelsLead_lines depth o fun q hq => h q (by simp [Walk.depths_cons, hq])
    have hrest := labelsLead_itemLines depth rest fun q hq => h q (by simp [Walk.depths_cons, hq])
    rw [itemLines]
    exact ho.append hrest

end

/-- Every labelled block of an operator at a given depth has its lines among the given ones. -/
def BlocksShown (ls : List TextLine) (q : Nat × Operator) : Prop :=
  ∀ l items, .mk (some l) items ∈ q.2.blocks → labelledLines q.1 l items <:+: ls

theorem BlocksShown.mono {ls ks : List TextLine} {q : Nat × Operator} (h : BlocksShown ls q)
    (hinside : ls <:+: ks) : BlocksShown ks q :=
  fun l items hb => (h l items hb).trans hinside

private theorem labelledLines_infix_blockLines {depth : Nat} {l : Label} {items : List Operator}
    {bs : List Block}
    (h : .mk (some l) items ∈ bs) : labelledLines depth l items <:+: blockLines depth bs := by
  obtain ⟨before, after, rfl⟩ := List.append_of_mem h
  induction before with
  | nil => exact List.infix_append [] _ _
  | cons b before ih =>
    obtain ⟨label, others⟩ := b
    exact (ih (by simp)).trans (List.suffix_append _ _).isInfix

private theorem labelledLines_infix_regionLines {depth : Nat} {closing : List Char} {l : Label}
    {items : List Operator} : ∀ {rs : List Region}, .mk (some l) items ∈ rs.flatMap Region.blocks →
    labelledLines depth l items <:+: regionLines depth closing rs := by
  intro rs h
  induction rs with
  | nil => simp at h
  | cons r rest ih =>
    obtain ⟨blocks⟩ := r
    rw [regionLines]
    rw [List.flatMap_cons, List.mem_append] at h
    rcases h with h | h
    · exact (labelledLines_infix_blockLines h).trans (List.prefix_append _ _).isInfix
    · exact ((ih h).trans (List.suffix_cons _ _).isInfix).trans (List.suffix_append _ _).isInfix

mutual

theorem blocksShown_lines (depth : Nat) : (o : Operator) → ∀ q ∈ walkAt depth o,
    BlocksShown (lines depth o) q
  | .mk head regions, q, hq => by
    rw [walkAt_mk, List.mem_cons] at hq
    have hsuffix := List.suffix_cons (.operator depth (mk head regions))
      (regionLines depth head.closing.toList regions)
    rw [lines]
    rcases hq with rfl | hq
    · intro l items hb
      exact (labelledLines_infix_regionLines hb).trans hsuffix.isInfix
    · exact (blocksShown_regionLines depth head.closing.toList regions q hq).mono hsuffix.isInfix

theorem blocksShown_regionLines (depth : Nat) (closing : List Char) : (rs : List Region) →
    ∀ q ∈ Walk.depths.regions (depth + 1) rs, BlocksShown (regionLines depth closing rs) q
  | [], q, hq => absurd hq (by simp)
  | .mk blocks :: rest, q, hq => by
    rw [Walk.depths_regions, List.mem_append] at hq
    rw [regionLines]
    rcases hq with hq | hq
    · exact (blocksShown_blockLines depth blocks q hq).mono (List.prefix_append _ _).isInfix
    · exact (blocksShown_regionLines depth closing rest q hq).mono
        ((List.suffix_cons _ _).trans (List.suffix_append _ _)).isInfix

theorem blocksShown_blockLines (depth : Nat) : (bs : List Block) →
    ∀ q ∈ Walk.depths.blocks (depth + 1) bs, BlocksShown (blockLines depth bs) q
  | [], q, hq => absurd hq (by simp)
  | .mk label items :: rest, q, hq => by
    rw [Walk.depths_blocks, List.mem_append] at hq
    rw [blockLines]
    rcases hq with hq | hq
    · exact (blocksShown_itemLines (depth + 1) items q hq).mono (List.infix_append _ _ _)
    · exact (blocksShown_blockLines depth rest q hq).mono (List.suffix_append _ _).isInfix

theorem blocksShown_itemLines (depth : Nat) : (os : List Operator) → ∀ q ∈ Walk.depths.items depth os,
    BlocksShown (itemLines depth os) q
  | [], q, hq => absurd hq (by simp)
  | o :: rest, q, hq => by
    rw [Walk.depths_cons, List.mem_append] at hq
    rw [itemLines]
    rcases hq with hq | hq
    · exact (blocksShown_lines depth o q hq).mono (List.prefix_append _ _).isInfix
    · exact (blocksShown_itemLines depth rest q hq).mono (List.suffix_append _ _).isInfix

end

private theorem operator_chars (depth : Nat) (o : Operator) :
    ∃ rest, (TextLine.operator depth o).chars =
      List.replicate (4 * depth) ' ' ++ (o.head.lead ++ rest) := by
  refine ⟨'(' :: (separated [' '] ValueId.chars o.head.args ++ ')' ::
    if o.regions.isEmpty then o.head.closing.toList else [' ', '(', '\x7b']), ?_⟩
  simp [TextLine.chars, indentation, Head.lead, Head.opening_chars]

/-- How the lines of a text stand for an operator. -/
structure LaidOut (o : Operator) (text : List (List Char)) : Prop where
  /-- The text has the planned lines. -/
  planned : text = (o.lines 0).map TextLine.chars
  length : text.length =
    o.walk.length + (o.walk.flatMap Operator.regions).length + (o.walk.flatMap Operator.labels).length
  /-- The operators begin in the order of the walk. -/
  order : ((o.lines 0).filterMap TextLine.operator?).map Prod.snd = o.walk
  depths : (o.lines 0).filterMap TextLine.operator? = o.walkAt 0
  first : ∀ depth p, .operator depth p ∈ o.lines 0 → ∃ rest, (TextLine.operator depth p).chars =
    List.replicate (4 * depth) ' ' ++ (p.head.lead ++ rest)
  label : ∀ depth l, (TextLine.label depth l).chars = List.replicate (4 * depth) ' ' ++ l.render.toList
  /-- Each label line belongs to a block of an operator at its depth, whose lines follow. -/
  labels : LabelsLead (fun depth l items => ∃ p, (depth, p) ∈ o.walkAt 0 ∧ .mk (some l) items ∈ p.blocks)
    (o.lines 0)
  /-- Each labelled block has such lines. -/
  blocks : ∀ q ∈ o.walkAt 0, BlocksShown (o.lines 0) q

private theorem laidOut_render {o : Operator} (h : o.OneLined) :
    o.LaidOut (o.render.toList.splitOn '\n') where
  planned := splitOn_render h
  length := by rw [splitOn_render h, List.length_map, length_lines, lineCount]
  order := by rw [operators_lines, map_snd_walkAt]
  depths := operators_lines 0 o
  first depth p _ := operator_chars depth p
  label _ _ := rfl
  labels := labelsLead_lines 0 o fun q hq _ _ hb => ⟨q.2, hq, hb⟩
  blocks := blocksShown_lines 0 o

end Operator

namespace Tally

def Ascending (t : Tally) : Prop := (t.map Prod.fst).Pairwise (· < ·)

private theorem total_add (k : String) (t : Tally) : (t.add k).total = t.total + 1 := by
  induction t with
  | nil => rfl
  | cons p rest ih =>
    obtain ⟨j, n⟩ := p
    simp only [add]
    split_ifs
    · simp only [total]
      omega
    · simp only [total]
      omega
    · simp only [total, ih]
      omega

private theorem mem_keys_add {j k : String} {t : Tally} (h : j ∈ (t.add k).map Prod.fst) :
    j = k ∨ j ∈ t.map Prod.fst := by
  induction t with
  | nil => simpa [add] using h
  | cons p rest ih =>
    obtain ⟨i, n⟩ := p
    simp only [add] at h
    split_ifs at h
    · simpa using h
    · exact .inr (by simpa using h)
    · rw [List.map_cons, List.mem_cons] at h ⊢
      rcases h with rfl | h
      · exact .inr (.inl rfl)
      · exact (ih h).imp_right .inr

private theorem Ascending.add {t : Tally} (h : t.Ascending) (k : String) : (t.add k).Ascending := by
  induction t with
  | nil => simp [Tally.add, Ascending]
  | cons p rest ih =>
    obtain ⟨j, n⟩ := p
    obtain ⟨hfirst, hrest⟩ := List.pairwise_cons.1 h
    simp only [Tally.add]
    split_ifs with hlt heq
    · refine List.pairwise_cons.2 ⟨fun i hi => ?_, h⟩
      rcases List.mem_cons.1 hi with rfl | hi
      · exact hlt
      · exact hlt.trans (hfirst i hi)
    · exact h
    · refine List.pairwise_cons.2 ⟨fun i hi => ?_, ih hrest⟩
      rcases mem_keys_add hi with rfl | hi
      · exact lt_of_le_of_ne (not_lt.1 hlt) (Ne.symm heq)
      · exact hfirst i hi

def count (t : Tally) (opcode : String) : Nat := (t.lookup opcode).getD 0

private theorem count_cons (k j : String) (n : Nat) (t : Tally) :
    count ((k, n) :: t) j = if j = k then n else t.count j := by
  by_cases h : j = k
  · simp [count, h]
  · simp [count, List.lookup_cons, h, beq_eq_false_iff_ne.2 h]

private theorem Ascending.count_eq_zero {k : String} {t : Tally} (h : ∀ j ∈ t.map Prod.fst, k < j) :
    t.count k = 0 := by
  induction t with
  | nil => rfl
  | cons p rest ih =>
    obtain ⟨j, n⟩ := p
    have hne : k ≠ j := (h j (by simp)).ne
    rw [count_cons, if_neg hne, ih fun i hi => h i (by simp_all)]

private theorem Ascending.count_add {t : Tally} (h : t.Ascending) (k j : String) :
    (t.add k).count j = t.count j + if k = j then 1 else 0 := by
  induction t with
  | nil =>
    rw [Tally.add, count_cons]
    simp [count, eq_comm]
  | cons p rest ih =>
    obtain ⟨i, n⟩ := p
    obtain ⟨hfirst, hrest⟩ := List.pairwise_cons.1 h
    simp only [Tally.add]
    by_cases hlt : k < i
    · have hzero : count ((i, n) :: rest) k = 0 := Ascending.count_eq_zero fun l hl => by
        rcases List.mem_cons.1 hl with rfl | hl
        · exact hlt
        · exact hlt.trans (hfirst l hl)
      rw [if_pos hlt, count_cons]
      by_cases hj : k = j
      · subst hj
        simp [hzero]
      · simp [hj, Ne.symm hj]
    · rw [if_neg hlt]
      by_cases heq : k = i
      · subst heq
        rw [if_pos rfl, count_cons, count_cons]
        by_cases hj : k = j
        · simp [hj]
        · simp [hj, Ne.symm hj]
      · rw [if_neg heq, count_cons, count_cons, ih hrest]
        by_cases hj : j = i
        · simp [hj, heq]
        · simp [hj]

end Tally

namespace Operator

private theorem count_foldl (ops : List Operator) {t : Tally} (h : t.Ascending) :
    let u : Tally := ops.foldl (fun t o => t.add o.head.opcode) t
    u.Ascending ∧ u.total = t.total + ops.length ∧
      ∀ opcode, u.count opcode = t.count opcode + ops.countP (·.head.opcode = opcode) := by
  induction ops generalizing t with
  | nil => simpa using h
  | cons o ops ih =>
    obtain ⟨hascending, htotal, hcount⟩ := ih (h.add o.head.opcode)
    refine ⟨hascending, ?_, fun opcode => ?_⟩
    · rw [List.foldl_cons, htotal, Tally.total_add, List.length_cons]
      omega
    · rw [List.foldl_cons, hcount, h.count_add, List.countP_cons]
      simp only [decide_eq_true_eq]
      omega

/-- A tally ascends, sums to the number of operators and gives that of each opcode. -/
theorem tally_spec (o : Operator) : o.tally.Ascending ∧ o.tally.total = o.walk.length ∧
    ∀ opcode, o.tally.count opcode = o.walk.countP (·.head.opcode = opcode) := by
  have hempty : Tally.Ascending [] := List.Pairwise.nil
  simpa [tally, Tally.total, Tally.count] using count_foldl o.walk hempty

end Operator

/-- The text has one line for each operator, region and labelled block. The lines that begin an operator
are those of the walk, each with its depth, results and opcode; a label stands at the depth of the operator
that owns its block, right before the lines of the block. So the tally counts lines. -/
theorem lines_follow_walk {o : Operator} (h : o.OneLined) :
    o.LaidOut (o.render.toList.splitOn '\n') ∧ (o.tally.map Prod.fst).Pairwise (· < ·) ∧
      o.tally.total = ((o.lines 0).filterMap TextLine.operator?).length ∧
      ∀ opcode, (o.tally.lookup opcode).getD 0 =
        ((o.lines 0).filterMap TextLine.operator?).countP (·.2.head.opcode = opcode) := by
  obtain ⟨hascending, htotal, hcount⟩ := o.tally_spec
  have hlaid := Operator.laidOut_render h
  refine ⟨hlaid, hascending, ?_, fun opcode => ?_⟩
  · rw [htotal, ← hlaid.order, List.length_map]
  · rw [← Tally.count, hcount, ← hlaid.order, List.countP_map]
    rfl

/-- A loop whose only region has a labelled block, an unlabelled one and an operator with a region of its
own. The attribute of the last holds a line break. -/
def nestedSample : Operator :=
  .mk (.py "while") [.mk
    [.mk (some ⟨"^head", [(.named "i", .named "int")]⟩)
      [.mk ((Head.py "not").withResult (.numbered 0) (.named "bool")) [],
       .mk (.py "if") [.single none [.mk (.py "pass") []], .single (some ⟨"^else", []⟩) []]],
     .mk none [.mk ((Head.py "constant").withAttr "value" (.text "a\nb")) []]]]

theorem nestedSample_lines : nestedSample.OneLined ∧
    (nestedSample.render.toList.splitOn '\n').length = 10 ∧
    (nestedSample.render.toList.splitOn '\n')[6]? = some "    ^else():".toList ∧
    nestedSample.tally.total = 5 := by
  have h : nestedSample.OneLined := by
    unfold Operator.OneLined
    decide
  obtain ⟨hlaid, _, htotal, _⟩ := lines_follow_walk h
  refine ⟨h, ?_, ?_, ?_⟩
  · rw [hlaid.length]
    decide
  · rw [hlaid.planned]
    decide
  · rw [htotal]
    decide

end RegionIR
