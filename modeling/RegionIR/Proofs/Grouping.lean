import RegionIR.Proofs.Phrases
/-!
# The text of an expression keeps its grouping

Two expressions with the same text are the same tree, apart from places and the kinds of literals. The
text is read from the left: the sign, then one operand after the other, each as its atom and one trailer
after the other. Of two operands that start alike, one is the other with more trailers, and what follows
tells which.
-/
namespace RegionIR

namespace Expr

/-- The sign that a text starts with. -/
private def signOf : List Char → Option (Option UnaryOperator)
  | '*' :: _ => some none
  | '~' :: _ => some (some .invert)
  | '+' :: _ => some (some .plus)
  | '-' :: _ => some (some .minus)
  | 'n' :: 'o' :: 't' :: ' ' :: _ => some (some .not)
  | _ => none

end Expr

namespace OpensOperand

variable {l : List Char}

private theorem no_negation (h : OpensOperand l) : ¬ "not ".toList <+: l := by
  rintro ⟨r, rfl⟩
  exact h.word (by simp [List.takeWhile, show isNameChar ' ' = false from by decide,
    show isNameChar 'n' = true from by decide, show isNameChar 'o' = true from by decide,
    show isNameChar 't' = true from by decide])

private theorem signOf_eq (h : OpensOperand l) : Expr.signOf l = none := by
  obtain ⟨c, r, hl, hc⟩ := h.first
  have hnot := h.no_negation
  unfold Expr.signOf
  split
  · cases hl
    exact absurd hc (by decide)
  · cases hl
    exact absurd hc (by decide)
  · cases hl
    exact absurd hc (by decide)
  · cases hl
    exact absurd hc (by decide)
  · exact absurd ⟨_, rfl⟩ hnot
  · rfl

end OpensOperand

namespace Expr

private theorem otherChars_starts (ps : List (Connective × Expr)) {r : List Char}
    (hr : StartsIn isBreak r) :
    StartsIn isBreak (otherChars ps ++ r) := by
  cases ps with
  | nil => exact hr
  | cons p ps => exact .cons (by decide) _

private theorem Readable.first_readable {e : Expr} (h : Readable true e) (hsign : e.sign = none) :
    e.first.Readable false ∧ ∀ p ∈ e.others, p.2.Readable false := by
  cases h with
  | binOp op left right => exact ⟨left, by simpa [others] using right⟩
  | @boolOp _ values op several readable =>
    obtain _ | ⟨e, rest⟩ := values
    · simp at several
    · refine ⟨readable e (by simp), fun p hp => ?_⟩
      obtain ⟨x, hx, rfl⟩ := List.mem_map.1 hp
      exact readable x (by simp [hx])
  | compare some length_eq left readable =>
    refine ⟨left, ?_⟩
    rintro ⟨c, x⟩ hx
    exact readable x (List.of_mem_zip hx).2
  | starred readable => simp [sign] at hsign
  | unaryOp op operand => simp [sign] at hsign
  | name word free => exact ⟨.name word free, by simp [others]⟩
  | constant literal => exact ⟨.constant literal, by simp [others]⟩
  | attr value word => exact ⟨.attr value word, by simp [others]⟩
  | subscript value slice pair => exact ⟨.subscript value slice pair, by simp [others]⟩
  | call func args words values => exact ⟨.call func args words values, by simp [others]⟩
  | list readable => exact ⟨.list readable, by simp [others]⟩
  | tuple readable => exact ⟨.tuple readable, by simp [others]⟩

private theorem Readable.opens_unsigned {e : Expr} (h : Readable true e) (hsign : e.sign = none)
    {r : List Char} (hr : StartsIn isBreak r) : OpensOperand (e.chars ++ r) := by
  rw [h.chars_eq hsign, List.append_assoc]
  exact (h.first_readable hsign).1.opens
    ((otherChars_starts e.others hr).mono fun c hc => isAfter_of_isBreak hc)

private theorem Readable.signOf_eq {e : Expr} (h : Readable true e) {r : List Char}
    (hr : StartsIn isBreak r) :
    signOf (e.chars ++ r) = e.sign := by
  cases hsign : e.sign with
  | none => exact (h.opens_unsigned hsign hr).signOf_eq
  | some sign =>
    cases h with
    | starred readable =>
      rw [chars_starred]
      exact hsign
    | unaryOp op operand =>
      rw [chars_unaryOp, ← hsign]
      cases op <;> rfl
    | @boolOp _ values _ _ _ => simp [Expr.sign] at hsign
    | _ => cases hsign

private def isStart (c : Char) : Bool := isFirst c || c = '*' || c = '~' || c = '+' || c = '-'

private theorem Readable.lead {e : Expr} (h : Readable true e) :
    ∃ c r, e.chars = c :: r ∧ isStart c = true := by
  cases hsign : e.sign with
  | none =>
    obtain ⟨c, r, hcr, hc⟩ := (h.opens_unsigned hsign .nil).first
    exact ⟨c, r, by simpa using hcr, by simp [isStart, hc]⟩
  | some sign =>
    cases h with
    | starred readable => exact ⟨'*', _, chars_starred _, by decide⟩
    | unaryOp op operand =>
      cases op with
      | invert => exact ⟨'~', _, chars_unaryOp _ _, by decide⟩
      | not => exact ⟨'n', _, chars_unaryOp _ _, by decide⟩
      | plus => exact ⟨'+', _, chars_unaryOp _ _, by decide⟩
      | minus => exact ⟨'-', _, chars_unaryOp _ _, by decide⟩
    | _ => cases hsign

/-- Where an expression ends and which one it is can be told from its text. -/
def Whole (e : Expr) : Prop := LegibleAt (Readable true) chars (StartsIn isEnd) e

/-- The same for an operand, up to trailers: one of two operands that start alike is the other one with
some more of them. -/
def Traced (e : Expr) : Prop :=
  ∀ e' r s, e'.Readable false → StartsIn isAfter r → StartsIn isAfter s →
    e.operandChars ++ r = e'.operandChars ++ s →
    (∃ ts : List Trailer, (∀ t ∈ ts, t.Readable) ∧ e' = e.extendedAll ts ∧ r = Trailer.charsAll ts ++ s) ∨
      ∃ ts, e = e'.extendedAll ts ∧ s = Trailer.charsAll ts ++ r

private theorem Traced.extended {e : Expr} (h : e.Traced) {t : Trailer}
    (ht : LegibleAt Trailer.Readable Trailer.chars (StartsIn isAfter) t) : (e.extended t).Traced := by
  intro e' r s he' hr hs heq
  obtain ⟨c, l, hc, _, hafter⟩ := t.lead
  rw [operandChars_extended, List.append_assoc] at heq
  rcases h e' _ s he' (by rw [hc]; exact .cons hafter _) hs heq with ⟨ts, hts, rfl, hrest⟩ | ⟨ts, rfl, rfl⟩
  · cases ts with
    | nil => exact .inr ⟨[t], rfl, by simpa [Trailer.charsAll] using hrest.symm⟩
    | cons u us =>
      have hsplit : t.chars ++ r = u.chars ++ (Trailer.charsAll us ++ s) := by
        simpa [Trailer.charsAll] using hrest
      obtain ⟨rfl, rfl⟩ := ht u _ _ (hts u (by simp)) hr (Trailer.charsAll_starts us hs) hsplit
      exact .inl ⟨us, fun v hv => hts v (by simp [hv]), rfl, rfl⟩
  · exact .inr ⟨ts ++ [t], by simp [extendedAll], by simp [Trailer.charsAll]⟩

private def AtomLegible (e : Expr) : Prop :=
  LegibleAt (fun a => a.Readable false ∧ a.isAtom = true) operandChars (StartsIn isAfter) e

private theorem Traced.ofAtom {e : Expr} (h : e.AtomLegible) : e.Traced := by
  intro e' r s he' hr hs heq
  obtain ⟨atom, ts, hatom, hflag, hts, rfl⟩ := he'.spine rfl
  rw [operandChars_extendedAll, List.append_assoc] at heq
  obtain ⟨rfl, rfl⟩ := h atom r _ ⟨hatom, hflag⟩ hr (Trailer.charsAll_starts ts hs) heq
  exact .inl ⟨ts, hts, rfl, rfl⟩

private theorem Traced.operand {e : Expr} (h : e.Traced) :
    LegibleAt (Readable false) operandChars (StartsIn isBreak) e := by
  have hnil : ∀ {ts : List Trailer} {r s}, StartsIn isBreak r → r = Trailer.charsAll ts ++ s → ts = [] := by
    intro ts r s hr heq
    cases ts with
    | nil => rfl
    | cons t ts =>
      obtain ⟨c, l, hc, hbreak, _⟩ := t.lead
      rw [heq] at hr
      simp only [Trailer.charsAll, List.flatMap_cons, hc, List.cons_append] at hr
      exact absurd hr (StartsIn.not_cons hbreak)
  intro e' r s he' hr hs heq
  have hafter : ∀ {l}, StartsIn isBreak l → StartsIn isAfter l :=
    fun hl => hl.mono fun c hc => isAfter_of_isBreak hc
  rcases h e' r s he' (hafter hr) (hafter hs) heq with ⟨ts, _, rfl, hrest⟩ | ⟨ts, rfl, hrest⟩
  · obtain rfl := hnil hr hrest
    exact ⟨rfl, hrest⟩
  · obtain rfl := hnil hs hrest
    exact ⟨rfl, hrest.symm⟩

private theorem others_legible {ps : List (Connective × Expr)}
    (each : ∀ p ∈ ps, LegibleAt (Readable false) operandChars (StartsIn isBreak) p.2)
    (readable : ∀ p ∈ ps, p.2.Readable false) :
    LegibleAt (fun qs => ∀ q ∈ qs, q.2.Readable false) otherChars (StartsIn isEnd) ps := by
  have hblank : ∀ {p : Connective × Expr} {ps r s}, StartsIn isEnd r → r ≠ otherChars (p :: ps) ++ s := by
    rintro p ps _ s hr rfl
    exact absurd hr (StartsIn.not_cons (by decide))
  have hopens : ∀ {e : Expr} {ps r}, e.Readable false → StartsIn isEnd r →
      ¬ "not ".toList <+: e.operandChars ++ (otherChars ps ++ r) := fun he hr =>
    (he.opens ((otherChars_starts _ (hr.mono fun c hc => isBreak_of_isEnd hc)).mono
      fun c hc => isAfter_of_isBreak hc)).no_negation
  intro qs r s hqs hr hs heq
  induction ps generalizing qs with
  | nil =>
    cases qs with
    | nil => exact ⟨rfl, heq⟩
    | cons q qs => exact absurd heq (hblank hr)
  | cons p ps ih =>
    cases qs with
    | nil => exact absurd heq.symm (hblank hs)
    | cons q qs =>
      obtain ⟨c, x⟩ := p
      obtain ⟨d, y⟩ := q
      have hx : x.Readable false := readable _ List.mem_cons_self
      have hy : y.Readable false := hqs _ List.mem_cons_self
      simp only [otherChars, List.flatMap_cons, List.cons_append, List.append_assoc, List.cons.injEq,
        true_and] at heq
      obtain ⟨hcd, hoperands⟩ := Connective.chars_inj (hopens hx hr) (hopens hy hs) heq
      obtain ⟨hxy, hrest⟩ := each _ List.mem_cons_self y _ _ hy
        (otherChars_starts ps (hr.mono fun c hc => isBreak_of_isEnd hc))
        (otherChars_starts qs (hs.mono fun c hc => isBreak_of_isEnd hc)) hoperands
      obtain ⟨htail, hrs⟩ := ih (fun p hp => each p (List.mem_cons_of_mem _ hp))
        (fun p hp => readable p (List.mem_cons_of_mem _ hp)) qs
        (fun q hq => hqs q (List.mem_cons_of_mem _ hq)) hrest
      exact ⟨by rw [hcd, ← hxy, htail], hrs⟩

private theorem Whole.ofOperands {e : Expr} (h : e.Readable true) (hsign : e.sign = none)
    (hfirst : LegibleAt (Readable false) operandChars (StartsIn isBreak) e.first)
    (hothers : ∀ p ∈ e.others, LegibleAt (Readable false) operandChars (StartsIn isBreak) p.2) :
    e.Whole := by
  intro e' r s he' hr hs heq
  have hbreak : ∀ {l}, StartsIn isEnd l → StartsIn isBreak l :=
    fun hl => hl.mono fun c hc => isBreak_of_isEnd hc
  have hsign' : e'.sign = none := by
    rw [← he'.signOf_eq (hbreak hs), ← heq, h.signOf_eq (hbreak hr), hsign]
  obtain ⟨_, hreadable⟩ := h.first_readable hsign
  obtain ⟨hfirst', hreadable'⟩ := he'.first_readable hsign'
  rw [h.chars_eq hsign, he'.chars_eq hsign', List.append_assoc, List.append_assoc] at heq
  obtain ⟨heads, hrest⟩ := hfirst _ _ _ hfirst' (otherChars_starts _ (hbreak hr))
    (otherChars_starts _ (hbreak hs)) heq
  obtain ⟨tails, hrs⟩ := others_legible hothers hreadable _ _ _ hreadable' hr hs hrest
  exact ⟨by rw [← h.joined_eq hsign, ← he'.joined_eq hsign', heads, tails], hrs⟩

private theorem elements_legible {xs : List Expr} (readable : ∀ x ∈ xs, Readable true x)
    (whole : ∀ x ∈ xs, x.Whole) :
    LegibleAt (fun ys => ∀ y ∈ ys, Readable true y) (separated [' '] chars)
      (fun r => StartsIn isEnd r ∧ StartsIn (fun c => ! isStart c && c != ',') r) xs :=
  .list isStart [' '] (fun r => .cons (by decide) r) (fun _ hy => hy.lead) readable whole

private theorem Whole.starred {value : Expr} (h : value.Whole) : (mk (.starred value) none).Whole := by
  intro e' r s he' hr hs heq
  have hbreak : ∀ {l}, StartsIn isEnd l → StartsIn isBreak l :=
    fun hl => hl.mono fun c hc => isBreak_of_isEnd hc
  have hsign : e'.sign = some none := by
    rw [← he'.signOf_eq (hbreak hs), ← heq, chars_starred]
    rfl
  cases he' with
  | starred readable' =>
    rw [chars_starred, chars_starred, List.cons_append, List.cons_append, List.cons.injEq] at heq
    obtain ⟨rfl, hrs⟩ := h _ _ _ readable'.starrable hr hs heq.2
    exact ⟨rfl, hrs⟩
  | unaryOp op operand => simp [sign] at hsign
  | _ => simp [sign] at hsign

private theorem Whole.signed {op : UnaryOperator} {operand : Expr} (readable : operand.Readable false)
    (h : LegibleAt (Readable false) operandChars (StartsIn isBreak) operand) :
    (mk (.unaryOp op operand) none).Whole := by
  intro e' r s he' hr hs heq
  have hbreak : ∀ {l}, StartsIn isEnd l → StartsIn isBreak l :=
    fun hl => hl.mono fun c hc => isBreak_of_isEnd hc
  have hsign : e'.sign = some (some op) := by
    rw [← he'.signOf_eq (hbreak hs), ← heq, (Readable.unaryOp op readable).signOf_eq (hbreak hr)]
    rfl
  cases he' with
  | unaryOp op' readable' =>
    obtain rfl : op' = op := by simpa [sign] using hsign
    rw [chars_unaryOp, chars_unaryOp, List.append_assoc, List.append_assoc] at heq
    obtain ⟨rfl, hrs⟩ := h _ _ _ readable' (hbreak hr) (hbreak hs) (List.append_cancel_left heq)
    exact ⟨rfl, hrs⟩
  | _ => simp [sign] at hsign

private theorem Readable.mark_eq {e e' : Expr} (h : Readable false e) (hatom : e.isAtom = true)
    (h' : Readable false e') (hatom' : e'.isAtom = true) {r s : List Char}
    (heq : e.operandChars ++ r = e'.operandChars ++ s) : e.mark = e'.mark := by
  have hword : ∀ {e e' : Expr} {c : Char} {l r s : List Char}, Readable false e → e.isWord = true →
      e.operandChars = e.chars → e'.operandChars = c :: l → isNameChar c = false →
      e.operandChars ++ r ≠ e'.operandChars ++ s := by
    intro e e' c l r s he hword hchars hc hname heq
    have spec := he.wordSpec hword
    obtain ⟨d, k, hd⟩ := List.exists_cons_of_ne_nil spec.ne_nil
    have hdname := spec.isNameChar d (by simp [hd])
    rw [hchars, hd, hc, List.cons_append, List.cons_append, List.cons.injEq] at heq
    rw [heq.1, hname] at hdname
    cases hdname
  rcases h.atom_cases hatom with ⟨hw, hmark, hchars⟩ | ⟨c, l, hmark, hc, _, hname⟩ <;>
    rcases h'.atom_cases hatom' with ⟨hw', hmark', hchars'⟩ | ⟨c', l', hmark', hc', _, hname'⟩
  · rw [hmark, hmark']
  · exact absurd heq (hword h hw hchars hc' hname')
  · exact absurd heq.symm (hword h' hw' hchars' hc hname)
  · rw [hc, hc', List.cons_append, List.cons_append, List.cons.injEq] at heq
    rw [hmark, hmark', heq.1]

private theorem AtomLegible.ofWord {e : Expr} (h : Readable false e) (hatom : e.isAtom = true)
    (hmark : e.mark = none) : e.AtomLegible := by
  intro e' r s ⟨h', hatom'⟩ hr hs heq
  have hmark' : e'.mark = none := by rw [← h.mark_eq hatom h' hatom' heq, hmark]
  have hstop : ∀ {l}, StartsIn isAfter l → StartsIn (! isNameChar ·) l := fun hl => hl.mono fun c hc => by
    simp only [isAfter, Bool.and_eq_true] at hc
    exact hc.1
  rcases h.atom_cases hatom with ⟨hw, _, hchars⟩ | ⟨c, l, hc, _⟩
  · rcases h'.atom_cases hatom' with ⟨hw', _, hchars'⟩ | ⟨c, l, hc, _⟩
    · have spec := h.wordSpec hw
      have spec' := h'.wordSpec hw'
      rw [hchars, hchars'] at heq
      obtain ⟨hwords, hrs⟩ := span_inj spec.isNameChar spec'.isNameChar (hstop hr) (hstop hs) heq
      have hwritten : e.written = e'.written := String.toList_injective hwords
      exact ⟨by rw [← spec.ofWord_eq, hwritten, spec'.ofWord_eq], hrs⟩
    · rw [hmark'] at hc
      cases hc
  · rw [hmark] at hc
    cases hc

private theorem singleQuotedChar_inj {c d : Char} {r s : List Char}
    (h : singleQuotedChar c ++ r = singleQuotedChar d ++ s) : c = d ∧ r = s := by
  unfold singleQuotedChar at h
  split_ifs at h <;> grind

private theorem singleQuotedChar_lead (c : Char) : ∃ d r, singleQuotedChar c = d :: r ∧ d ≠ '\'' := by
  unfold singleQuotedChar
  split_ifs with h
  all_goals simp [*]

private theorem AtomLegible.text (s : String) : (mk (.constant (.text s) none) none).AtomLegible := by
  intro e' r u ⟨h', hatom'⟩ _ _ heq
  have hmark := (Readable.constant (.text s)).mark_eq rfl h' hatom' heq
  cases h' with
  | constant literal' =>
    cases literal' with
    | text t =>
      simp only [operandChars, isOperation, Bool.false_eq_true, if_false, chars_text, List.cons_append,
        List.append_assoc, List.nil_append, List.cons.injEq, true_and] at heq
      obtain ⟨hst, hru⟩ := quoted_inj singleQuotedChar_inj singleQuotedChar_lead heq
      exact ⟨by rw [String.toList_injective hst], hru⟩
    | _ => simp [mark] at hmark
  | _ => simp [mark] at hmark

private theorem AtomLegible.list {elts : List Expr} (readable : ∀ x ∈ elts, Readable true x)
    (whole : ∀ x ∈ elts, x.Whole) : (mk (.list elts) none).AtomLegible := by
  intro e' r u ⟨h', hatom'⟩ _ _ heq
  have hmark := (Readable.list readable).mark_eq rfl h' hatom' heq
  cases h' with
  | list readable' =>
    simp only [operandChars, isOperation, Bool.false_eq_true, if_false, chars_list, List.cons_append,
      List.append_assoc, List.nil_append, List.cons.injEq, true_and] at heq
    obtain ⟨helts, hrest⟩ := elements_legible readable whole _ _ _ readable'
      ⟨.cons (by decide) _, .cons (by decide) _⟩ ⟨.cons (by decide) _, .cons (by decide) _⟩ heq
    exact ⟨by rw [helts], (List.cons.inj hrest).2⟩
  | constant literal' => cases literal' <;> simp [mark] at hmark
  | _ => simp [mark] at hmark

/-- What is in the brackets of an atom: the elements of a tuple, or an operation. -/
def bracketed : Expr → List Expr × Bool
  | mk (.tuple elts) _ => (elts, true)
  | e => ([e], false)

/-- How the bracket closes. A tuple of one element ends in a comma. -/
def closer (items : List Expr) (tuple : Bool) : List Char :=
  if tuple && items.length == 1 then [',', ')'] else [')']

private theorem closer_starts (items : List Expr) (tuple : Bool) (r : List Char) :
    StartsIn isEnd (closer items tuple ++ r) := by
  unfold closer
  split <;> exact .cons (by decide) _

/-- The brackets of a tuple and those around an operation are told apart by the commas. -/
theorem brackets_inj {xs ys : List Expr} {b b' : Bool} (readable : ∀ x ∈ xs, Readable true x)
    (whole : ∀ x ∈ xs, x.Whole) (readable' : ∀ y ∈ ys, Readable true y)
    (hb : b = false → xs.length = 1) (hb' : b' = false → ys.length = 1) {r s : List Char}
    (heq : separated [' '] chars xs ++ (closer xs b ++ r) = separated [' '] chars ys ++ (closer ys b' ++ s)) :
    xs = ys ∧ b = b' ∧ r = s := by
  have hempty : ∀ {y : Expr} {ys r s}, Readable true y →
      separated [' '] chars [] ++ (closer [] true ++ r) ≠ separated [' '] chars (y :: ys) ++ s := by
    intro y ys r s hy heq
    obtain ⟨c, l, hc, hstart⟩ := hy.lead
    simp only [separated_cons, hc, List.cons_append] at heq
    rw [← (List.cons.inj heq).1] at hstart
    exact absurd hstart (by decide)
  have hcontinued : ∀ xs items b r, StartsIn isEnd (continued [' '] chars xs ++ (closer items b ++ r)) := by
    intro xs items b r
    cases xs with
    | nil => exact closer_starts items b r
    | cons x xs => exact .cons (by decide) _
  have htuple : ∀ {b : Bool} {xs : List Expr}, (b = false → xs.length = 1) → xs.length ≠ 1 → b = true :=
    fun h hne => Bool.eq_true_of_not_eq_false fun hb => hne (h hb)
  have hclose : ∀ {x y : Expr} {xs r}, closer (x :: y :: xs) true ++ r = ')' :: r := by
    simp [closer]
  cases xs with
  | nil =>
    obtain rfl := htuple hb (by simp)
    cases ys with
    | nil =>
      obtain rfl := htuple hb' (by simp)
      simpa [closer] using heq
    | cons y ys => exact absurd heq (hempty (readable' y (by simp)))
  | cons x xs =>
    cases ys with
    | nil =>
      obtain rfl := htuple hb' (by simp)
      exact absurd heq.symm (hempty (readable x (by simp)))
    | cons y ys =>
      rw [separated_cons, separated_cons, List.append_assoc, List.append_assoc] at heq
      obtain ⟨rfl, hrest⟩ := whole x (by simp) y _ _ (readable' y (by simp)) (hcontinued xs _ b r)
        (hcontinued ys _ b' s) heq
      -- after the first element, what follows the comma or its absence decides
      cases xs with
      | nil =>
        cases ys with
        | nil => cases b <;> cases b' <;> simp_all [continued, closer]
        | cons w ws => cases b <;> simp [continued, closer] at hrest
      | cons z zs =>
        obtain rfl := htuple hb (by simp)
        cases ys with
        | nil => cases b' <;> simp [continued, closer] at hrest
        | cons w ws =>
          obtain rfl := htuple hb' (by simp)
          rw [continued, continued, List.append_assoc, List.append_assoc, List.append_right_inj, hclose,
            hclose] at hrest
          obtain ⟨htail, hclosed⟩ := elements_legible (fun e he => readable e (List.mem_cons_of_mem _ he))
            (fun e he => whole e (List.mem_cons_of_mem _ he)) _ _ _
            (fun e he => readable' e (List.mem_cons_of_mem _ he))
            ⟨.cons (by decide) _, .cons (by decide) _⟩ ⟨.cons (by decide) _, .cons (by decide) _⟩ hrest
          exact ⟨by rw [htail], rfl, (List.cons.inj hclosed).2⟩

def unbracketed : List Expr × Bool → Expr
  | (elts, true) => mk (.tuple elts) none
  | (elts, false) => elts.headD default

structure BracketSpec (e : Expr) : Prop where
  chars_eq : e.operandChars =
    '(' :: (separated [' '] chars e.bracketed.1 ++ closer e.bracketed.1 e.bracketed.2)
  readable : ∀ x ∈ e.bracketed.1, Readable true x
  length_eq : e.bracketed.2 = false → e.bracketed.1.length = 1
  unbracketed_eq : unbracketed e.bracketed = e

private theorem BracketSpec.ofOperation {e : Expr} (h : Readable false e) (hop : e.isOperation = true)
    (heq : e.bracketed = ([e], false)) : e.BracketSpec := by
  refine ⟨?_, ?_, ?_, ?_⟩
  · simp [heq, operandChars, hop, closer, separated]
  · simpa [heq] using h.starrable
  · simp [heq]
  · simp [heq, unbracketed]

private theorem Readable.bracketSpec {e : Expr} (h : Readable false e) (hatom : e.isAtom = true)
    (hmark : e.mark = some '(') : e.BracketSpec := by
  cases h with
  | @tuple _ elts readable =>
    refine ⟨?_, readable, by simp [bracketed], rfl⟩
    rw [operandChars, if_neg (by simp [isOperation]), chars_tuple]
    by_cases hone : elts.length = 1 <;> simp [bracketed, closer, hone]
  | binOp op left right => exact .ofOperation (.binOp op left right) rfl rfl
  | unaryOp op operand => exact .ofOperation (.unaryOp op operand) rfl rfl
  | boolOp op several readable => exact .ofOperation (.boolOp op several readable) rfl rfl
  | compare some length_eq left readable =>
    exact .ofOperation (.compare some length_eq left readable) rfl rfl
  | constant literal => cases literal <;> simp [mark] at hmark
  | name word free => simp [mark] at hmark
  | list readable => simp [mark] at hmark
  | _ => simp [isAtom] at hatom

private theorem AtomLegible.bracketed {e : Expr} (h : Readable false e) (hatom : e.isAtom = true)
    (hmark : e.mark = some '(') (whole : ∀ x ∈ e.bracketed.1, x.Whole) : e.AtomLegible := by
  intro e' r s ⟨h', hatom'⟩ _ _ heq
  have spec := h.bracketSpec hatom hmark
  have spec' := h'.bracketSpec hatom' (by rw [← h.mark_eq hatom h' hatom' heq, hmark])
  rw [spec.chars_eq, spec'.chars_eq, List.cons_append, List.cons_append, List.append_assoc,
    List.append_assoc, List.cons.injEq] at heq
  obtain ⟨hitems, hflag, hrs⟩ := brackets_inj spec.readable whole spec'.readable spec.length_eq
    spec'.length_eq heq.2
  exact ⟨by rw [← spec.unbracketed_eq, ← spec'.unbracketed_eq, Prod.ext hitems hflag], hrs⟩

end Expr

private theorem identifier_legible {s : String} (h : isIdentifier s = true) {p : Char → Bool}
    (hp : ∀ c, p c = true → isNameChar c = false) :
    LegibleAt (fun t => isIdentifier t = true) String.toList (StartsIn p) s := by
  have hstop : ∀ {l}, StartsIn p l → StartsIn (! isNameChar ·) l :=
    fun hl => hl.mono fun c hc => by rw [hp c hc]; rfl
  intro t r u ht hr hu heq
  obtain ⟨_, _, _, _, hs⟩ := isIdentifier_spec h
  obtain ⟨_, _, _, _, ht⟩ := isIdentifier_spec ht
  obtain ⟨hst, hru⟩ := span_inj hs ht (hstop hr) (hstop hu) heq
  exact ⟨String.toList_injective hst, hru⟩

namespace Argument

inductive Kind where
  | positional
  | named
  | mapping

private def kind : Argument → Kind
  | .inl _ => .positional
  | .inr (.mk (some _) _) => .named
  | .inr (.mk none _) => .mapping

private def kindOf : List Char → Kind
  | '*' :: '*' :: _ => .mapping
  | l => if (l.dropWhile isNameChar).head? = some '=' then .named else .positional

private def Readable : Argument → Prop
  | .inl e => e.Readable true
  | .inr k => (∀ name ∈ k.arg, isIdentifier name = true) ∧ k.value.Readable false

private def value : Argument → Expr
  | .inl e => e
  | .inr k => k.value

private theorem kindOf_of_starts {c : Char} {r : List Char} (hc : c ≠ '*')
    (h : StartsIn (· != '=') ((c :: r).dropWhile isNameChar)) : kindOf (c :: r) = .positional := by
  have hne : ((c :: r).dropWhile isNameChar).head? ≠ some '=' := by
    intro heq
    simpa using h '=' heq
  unfold kindOf
  split
  · simp_all
  · rw [if_neg hne]

private theorem kindOf_expr {e : Expr} (h : e.Readable true) {r : List Char} (hr : StartsIn isEnd r) :
    kindOf (e.chars ++ r) = .positional := by
  have hbreak : StartsIn isBreak r := hr.mono fun c hc => isBreak_of_isEnd hc
  cases hsign : e.sign with
  | none =>
    have hopens := h.opens_unsigned hsign hbreak
    obtain ⟨c, l, hcl, hc⟩ := hopens.first
    have hafter := hopens.after
    rw [hcl] at hafter ⊢
    refine kindOf_of_starts ?_ (hafter.mono fun d hd => ?_)
    · rintro rfl
      exact absurd hc (by decide)
    · simp only [isAfter, Bool.and_eq_true] at hd
      exact hd.2
  | some sign =>
    cases h with
    | @starred v readable =>
      rw [Expr.chars_starred, List.cons_append]
      have hv : Expr.signOf (v.chars ++ r) ≠ some none := by
        rw [readable.starrable.signOf_eq hbreak]
        cases readable <;> simp [Expr.sign]
      unfold kindOf
      split
      · rename_i heq
        rw [(List.cons.inj heq).2] at hv
        exact absurd rfl hv
      · rfl
    | unaryOp op operand =>
      rw [Expr.chars_unaryOp]
      cases op with
      | invert => exact kindOf_of_starts (by decide) (.cons (by decide) _)
      | not => exact kindOf_of_starts (by decide) (.cons (by decide) _)
      | plus => exact kindOf_of_starts (by decide) (.cons (by decide) _)
      | minus => exact kindOf_of_starts (by decide) (.cons (by decide) _)
    | _ => cases hsign

private theorem kindOf_eq {a : Argument} (h : a.Readable) {r : List Char} (hr : StartsIn isEnd r) :
    kindOf (a.chars ++ r) = a.kind := by
  obtain e | ⟨_ | name, value⟩ := a
  · exact kindOf_expr h hr
  · rfl
  · obtain ⟨c, l, hcl, _, hall⟩ := isIdentifier_spec (h.1 name rfl)
    have hc : isNameChar c = true := hall c (by simp [hcl])
    have hdrop : (name.toList ++ '=' :: (value.chars ++ r)).dropWhile isNameChar =
        '=' :: (value.chars ++ r) := by
      rw [List.dropWhile_append_of_pos hall]
      rfl
    simp only [chars, kind, List.append_assoc, List.cons_append]
    unfold kindOf
    split
    · rename_i heq
      rw [hcl, List.cons_append] at heq
      rw [(List.cons.inj heq).1] at hc
      exact absurd hc (by decide)
    · rw [hdrop]
      rfl

private theorem lead {a : Argument} (h : a.Readable) :
    ∃ c r, a.chars = c :: r ∧ Expr.isStart c = true := by
  obtain e | ⟨_ | name, value⟩ := a
  · exact Expr.Readable.lead h
  · exact ⟨'*', _, rfl, by decide⟩
  · obtain ⟨c, l, hcl, _, hall⟩ := isIdentifier_spec (h.1 name rfl)
    exact ⟨c, l ++ '=' :: value.chars, by simp [chars, hcl],
      by simp [Expr.isStart, isFirst, hall c (by simp [hcl])]⟩

private theorem all_inj {args args' : List Expr} {keywords keywords' : List Keyword}
    (h : all args keywords = all args' keywords') : args = args' ∧ keywords = keywords' := by
  have hleft := congrArg (List.filterMap Sum.getLeft?) h
  have hright := congrArg (List.filterMap Sum.getRight?) h
  simp [all, List.filterMap_map, Function.comp_def] at hleft hright
  exact ⟨hleft, hright⟩

private theorem legible {a : Argument} (h : a.Readable) (whole : a.value.Whole) :
    LegibleAt Readable chars (StartsIn isEnd) a := by
  intro b r s hb hr hs heq
  have hkind : a.kind = b.kind := by rw [← kindOf_eq h hr, heq, kindOf_eq hb hs]
  obtain e | ⟨_ | name, value⟩ := a <;> obtain e' | ⟨_ | name', value'⟩ := b <;>
    simp only [kind, reduceCtorEq] at hkind
  · obtain ⟨hee, hrs⟩ := whole e' r s hb hr hs heq
    exact ⟨congrArg Sum.inl hee, hrs⟩
  · simp only [chars, List.cons_append, List.cons.injEq, true_and] at heq
    obtain ⟨hvv, hrs⟩ := whole value' r s hb.2.starrable hr hs heq
    have hvv : value = value' := hvv
    exact ⟨by rw [hvv], hrs⟩
  · simp only [chars, List.append_assoc, List.cons_append] at heq
    have hequals : ∀ c : Char, decide (c = '=') = true → isNameChar c = false := by
      intro c hc
      rw [of_decide_eq_true hc]
      decide
    obtain ⟨hname, hrest⟩ := identifier_legible (h.1 name rfl) hequals name' _ _ (hb.1 name' rfl)
      (.cons (by decide) _) (.cons (by decide) _) heq
    obtain ⟨hvv, hrs⟩ := whole value' r s hb.2.starrable hr hs (List.cons.inj hrest).2
    have hvv : value = value' := hvv
    exact ⟨by rw [hname, hvv], hrs⟩

end Argument

namespace Expr

private def ofItems : List Expr → Expr
  | [e] => e
  | elts => mk (.tuple elts) none

private theorem Readable.ofItems_eq {e : Expr} (h : Readable false e)
    (pair : ∀ elts, e.form = .tuple elts → 2 ≤ elts.length) : ofItems e.sliceItems = e := by
  cases h with
  | @tuple _ elts readable =>
    have hpair := pair elts rfl
    obtain _ | ⟨x, _ | ⟨y, rest⟩⟩ := elts
    · simp at hpair
    · simp at hpair
    · rfl
  | _ => rfl

private theorem Readable.items_readable {e : Expr} (h : Readable false e) :
    ∀ x ∈ e.sliceItems, x.Readable true := by
  have hself := h.starrable
  cases h with
  | tuple readable => exact readable
  | _ =>
    intro x hx
    obtain rfl := List.mem_singleton.1 hx
    exact hself

end Expr

namespace Trailer

private theorem attr_legible {name : String} (word : isIdentifier name = true) :
    LegibleAt Readable chars (StartsIn isAfter) (attr name) := by
  have hafter : ∀ c, isAfter c = true → isNameChar c = false := by
    intro c hc
    simp only [isAfter, Bool.and_eq_true, Bool.not_eq_true'] at hc
    exact hc.1
  intro t r s ht hr hs heq
  cases t with
  | attr name' =>
    obtain ⟨hname, hrs⟩ := identifier_legible word hafter name' r s ht hr hs (List.cons.inj heq).2
    exact ⟨congrArg attr hname, hrs⟩
  | slice e => exact absurd (List.cons.inj heq).1 (by decide)
  | call args keywords => exact absurd (List.cons.inj heq).1 (by decide)

private theorem slice_legible {e : Expr} (h : (slice e).Readable) (whole : ∀ x ∈ e.sliceItems, x.Whole) :
    LegibleAt Readable chars (StartsIn isAfter) (slice e) := by
  intro t r s ht hr hs heq
  cases t with
  | slice e' =>
    simp only [chars, List.cons_append, List.append_assoc, List.nil_append, List.cons.injEq,
      true_and] at heq
    obtain ⟨hitems, hrest⟩ := Expr.elements_legible h.1.items_readable whole _ _ _ ht.1.items_readable
      ⟨.cons (by decide) _, .cons (by decide) _⟩ ⟨.cons (by decide) _, .cons (by decide) _⟩ heq
    refine ⟨?_, (List.cons.inj hrest).2⟩
    rw [← h.1.ofItems_eq h.2, hitems, ht.1.ofItems_eq ht.2]
  | attr name => exact absurd (List.cons.inj heq).1 (by decide)
  | call args keywords => exact absurd (List.cons.inj heq).1 (by decide)

private theorem readable_all {args : List Expr} {keywords : List Keyword}
    (h : (call args keywords).Readable) :
    ∀ a ∈ Argument.all args keywords, a.Readable := by
  intro a ha
  rcases List.mem_append.1 ha with ha | ha
  · obtain ⟨e, he, rfl⟩ := List.mem_map.1 ha
    exact h.1 e he
  · obtain ⟨k, hk, rfl⟩ := List.mem_map.1 ha
    exact ⟨h.2.1 k hk, h.2.2 k hk⟩

private theorem call_legible {args : List Expr} {keywords : List Keyword}
    (h : (call args keywords).Readable) (whole : ∀ a ∈ Argument.all args keywords, a.value.Whole) :
    LegibleAt Readable chars (StartsIn isAfter) (call args keywords) := by
  intro t r s ht hr hs heq
  cases t with
  | call args' keywords' =>
    simp only [chars, List.cons_append, List.append_assoc, List.nil_append, List.cons.injEq,
      true_and] at heq
    obtain ⟨hall, hrest⟩ := LegibleAt.list Expr.isStart [' '] (fun l => .cons (by decide) l)
      (fun a ha => Argument.lead ha) (readable_all h)
      (fun a ha => Argument.legible (readable_all h a ha) (whole a ha)) _ _ _ (readable_all ht)
      ⟨.cons (by decide) _, .cons (by decide) _⟩ ⟨.cons (by decide) _, .cons (by decide) _⟩ heq
    obtain ⟨hargs, hkeywords⟩ := Argument.all_inj hall
    exact ⟨by rw [hargs, hkeywords], (List.cons.inj hrest).2⟩
  | attr name => exact absurd (List.cons.inj heq).1 (by decide)
  | slice e => exact absurd (List.cons.inj heq).1 (by decide)

end Trailer

namespace Expr

/-- What the text of an expression tells, alone, as an operand and as a slice. -/
structure Told (star : Bool) (e : Expr) : Prop where
  whole : e.Whole
  traced : star = false → e.Traced
  items : ∀ x ∈ e.sliceItems, x.Whole

/-- An operation is told if it is told alone, since it has brackets elsewhere. -/
theorem Told.ofOperation {star : Bool} {e : Expr} (h : Readable false e)
    (hbracketed : e.bracketed = ([e], false)) (hitems : e.sliceItems = [e]) (hmark : e.mark = some '(')
    (hatom : e.isAtom = true) (whole : e.Whole) : Told star e where
  whole := whole
  traced _ := .ofAtom (.bracketed h hatom hmark (by simpa [hbracketed] using whole))
  items := by simpa [hitems] using whole

private theorem Told.ofOperand {star : Bool} {e : Expr} (h : Readable false e) (hsign : e.sign = none)
    (hfirst : e.first = e) (hothers : e.others = []) (traced : e.Traced)
    (items : e.Whole → ∀ x ∈ e.sliceItems, x.Whole) : Told star e := by
  have whole : e.Whole := .ofOperands h.starrable hsign (by rw [hfirst]; exact traced.operand)
    (by simp [hothers])
  exact ⟨whole, fun _ => traced, items whole⟩

private theorem Readable.told {star : Bool} {e : Expr} (h : Readable star e) : Told star e := by
  have hsingle : ∀ {e : Expr}, e.Whole → ∀ x ∈ [e], x.Whole := by simp
  induction h with
  | name word free =>
    exact .ofOperand (.name word free) rfl rfl rfl (.ofAtom (.ofWord (.name word free) rfl rfl)) hsingle
  | constant literal =>
    have readable : Readable false (mk (.constant _ none) none) := .constant literal
    refine .ofOperand readable rfl rfl rfl (.ofAtom ?_) hsingle
    cases literal with
    | text s => exact .text s
    | _ => exact .ofWord readable rfl rfl
  | attr value word ih =>
    exact .ofOperand (.attr value word) rfl rfl rfl
      ((ih.traced rfl).extended (Trailer.attr_legible word)) hsingle
  | subscript value slice pair ih ihs =>
    exact .ofOperand (.subscript value slice pair) rfl rfl rfl
      ((ih.traced rfl).extended (Trailer.slice_legible ⟨slice, pair⟩ ihs.items)) hsingle
  | call func args words values ih iha ihv =>
    refine .ofOperand (.call func args words values) rfl rfl rfl
      ((ih.traced rfl).extended (Trailer.call_legible ⟨args, words, values⟩ fun a ha => ?_)) hsingle
    rcases List.mem_append.1 ha with ha | ha
    · obtain ⟨x, hx, rfl⟩ := List.mem_map.1 ha
      exact (iha x hx).whole
    · obtain ⟨k, hk, rfl⟩ := List.mem_map.1 ha
      exact (ihv k hk).whole
  | list readable ih =>
    exact .ofOperand (.list readable) rfl rfl rfl
      (.ofAtom (.list readable fun x hx => (ih x hx).whole)) hsingle
  | tuple readable ih =>
    exact .ofOperand (.tuple readable) rfl rfl rfl
      (.ofAtom (.bracketed (.tuple readable) rfl rfl fun x hx => (ih x hx).whole))
      fun _ x hx => (ih x hx).whole
  | binOp op left right ihl ihr =>
    refine .ofOperation (.binOp op left right) rfl rfl rfl rfl
      (.ofOperands (.binOp op left right) rfl (ihl.traced rfl).operand ?_)
    simpa [others] using (ihr.traced rfl).operand
  | unaryOp op operand ih =>
    exact .ofOperation (.unaryOp op operand) rfl rfl rfl rfl (.signed operand (ih.traced rfl).operand)
  | @boolOp _ values op several readable ih =>
    have hwhole : Readable true (mk (.boolOp op values) none) := .boolOp op several readable
    refine .ofOperation (.boolOp op several readable) rfl rfl rfl rfl (.ofOperands hwhole rfl ?_ ?_)
    · obtain _ | ⟨x, rest⟩ := values
      · simp at several
      · exact ((ih x (by simp)).traced rfl).operand
    · obtain _ | ⟨x, rest⟩ := values
      · simp at several
      · rintro p hp
        obtain ⟨y, hy, rfl⟩ := List.mem_map.1 hp
        exact ((ih y (by simp [hy])).traced rfl).operand
  | compare some length_eq left readable ihl ih =>
    refine .ofOperation (.compare some length_eq left readable) rfl rfl rfl rfl
      (.ofOperands (.compare some length_eq left readable) rfl (ihl.traced rfl).operand ?_)
    rintro ⟨c, x⟩ hx
    exact ((ih x (List.of_mem_zip hx).2).traced rfl).operand
  | starred readable ih =>
    have whole := ih.whole.starred
    exact ⟨whole, by simp, by simpa [sliceItems] using whole⟩

end Expr

/-- Expressions with the same text are the same, apart from places and the kinds of literals. -/
theorem written_keeps_grouping {e e' : Expr} (h : e.stripped.Readable false)
    (h' : e'.stripped.Readable false) (heq : e.written = e'.written) : e.stripped = e'.stripped := by
  have hchars : e.stripped.chars ++ [] = e'.stripped.chars ++ [] := by
    rw [Expr.chars, Expr.chars, Expr.written_stripped, Expr.written_stripped, heq]
  exact (h.told.whole _ _ _ h'.starrable .nil .nil hchars).1

/-- The expression `(-f(*a)[1, (j,)]) is not (not x)`, with its literal of the given kind and its names
at the given place. -/
def groupedSample (kind : Option String) (span : Option Span) : Expr :=
  let name := fun id => Expr.mk (.name id) span
  let call := Expr.mk (.call (name "f") [.mk (.starred (name "a")) none] []) none
  let pair := Expr.mk (.tuple [.mk (.constant (.int 1) kind) none, .mk (.tuple [name "j"]) none]) none
  .mk (.compare (.mk (.unaryOp .minus (.mk (.subscript call pair) none)) none) [.notSame]
    [.mk (.unaryOp .not (name "x")) none]) none

private theorem groupedSample_readable (kind : Option String) (span : Option Span) :
    (groupedSample kind span).stripped.Readable false := by
  have hname : ∀ id, isIdentifier id = true → id ∉ reservedWords → (Expr.mk (.name id) none).Readable false :=
    fun id => .name
  have hcall : (Expr.mk (.call (.mk (.name "f") none) [.mk (.starred (.mk (.name "a") none)) none] [])
      none).Readable false :=
    .call (hname "f" (by decide) (by decide))
      (by simpa using Expr.Readable.starred (hname "a" (by decide) (by decide))) (by simp) (by simp)
  have hinner : (Expr.mk (.tuple [.mk (.name "j") none]) none).Readable true :=
    .tuple (by simpa using (hname "j" (by decide) (by decide)).starrable)
  have hone : (Expr.mk (.constant (.int 1) none) none).Readable true :=
    .constant (.int (n := 1) (by decide))
  have hpair : (Expr.mk (.tuple [.mk (.constant (.int 1) none) none,
      .mk (.tuple [.mk (.name "j") none]) none]) none).Readable false :=
    .tuple (by simpa using ⟨hone, hinner⟩)
  have hslice : (Expr.mk (.subscript _ _) none).Readable false :=
    .subscript hcall hpair (by rintro _ ⟨⟩; decide)
  have hnot : ∀ e ∈ [Expr.mk (.unaryOp .not (.mk (.name "x") none)) none], e.Readable false := by
    simpa using Expr.Readable.unaryOp .not (hname "x" (by decide) (by decide))
  exact .compare (by decide) rfl (.unaryOp .minus hslice) hnot

/-- Kinds and places leave no trace in the text, everything else does. -/
theorem groupedSample_grouping :
    (groupedSample (some "u") (some default)).written = "(-f(*a)[1, (j,)]) is not (not x)" ∧
      (groupedSample (some "u") (some default)).stripped = (groupedSample none none).stripped :=
  ⟨by decide, written_keeps_grouping (groupedSample_readable _ _) (groupedSample_readable _ _) (by decide)⟩

end RegionIR
