import RegionIR.Proofs.Scanning
/-!
# Tokens

What a reader of scalars makes of a text depends on the characters it moves over and on the one that
follows them, and on nothing else: not on where in the text they stand, nor on what comes later.
`Reads` states that for one run, and the readers of numbers, words and strings are taken apart by it.
`Lexical` tells the characters outside strings from those inside, so that it can be said where a token
may not be cut.
-/
namespace RegionIR.Json

open Schema (outcome outcome_bind outcome_pure outcome_map outcome_advance outcome_failHere
  outcome_failAhead toOption_eq_some_iff)

/-- What is left of the text lies within its size. -/
def Cursor.Roomy (c : Cursor) : Prop := c.index + String.utf8Len c.rest ≤ c.size

theorem Cursor.roomy_ofText (text : String) : (Cursor.ofText text).Roomy := by
  simp [Cursor.Roomy, Cursor.ofText, String.utf8Len_toList]

private theorem length_le_utf8Len (cs : List Char) : cs.length ≤ String.utf8Len cs := by
  induction cs with
  | nil => simp
  | cons x cs ih =>
    have := Char.utf8Size_pos x
    rw [String.utf8Len_cons, List.length_cons]
    omega

theorem Cursor.Roomy.length_le {c : Cursor} (h : c.Roomy) : c.rest.length ≤ c.size := by
  have := length_le_utf8Len c.rest
  rw [Cursor.Roomy] at h
  omega

theorem Cursor.Roomy.advance {c : Cursor} (h : c.Roomy) {t rest : List Char} (hrest : c.rest = t ++ rest) :
    (c.advance t.length).rest = rest ∧ (c.advance t.length).Roomy := by
  have := length_le_utf8Len t
  rw [Cursor.Roomy, hrest, String.utf8Len_append] at h
  refine ⟨by simp [Cursor.advance, hrest], ?_⟩
  simp only [Cursor.Roomy, Cursor.advance, hrest, List.drop_left]
  omega

private theorem Cursor.advance_advance (c : Cursor) (m n : Nat) :
    (c.advance m).advance n = c.advance (m + n) := by
  simp [Cursor.advance, Nat.add_assoc]

/-- A reader makes `x` of the characters `t` wherever they stand, so long as `next` follows them. -/
def Reads {α : Type} (r : Reader α) (t : List Char) (x : α) (next : Option Char) : Prop :=
  ∀ (c : Cursor) (rest : List Char), c.rest = t ++ rest → rest.head? = next → c.Roomy →
    ∃ c', outcome r c = some (x, c') ∧ c'.rest = rest ∧ c'.Roomy

section Steps

variable {α β : Type} {r : Reader α} {f : α → Reader β} {t t' : List Char} {x : α} {y : β}
  {next : Option Char}

theorem Reads.pure (x : α) (next : Option Char) : Reads (pure x) [] x next :=
  fun c _ hrest _ hroomy => ⟨c, rfl, hrest, hroomy⟩

private theorem Reads.peek (next : Option Char) : Reads Reader.peek [] next next := by
  intro c rest hrest hnext hroomy
  refine ⟨c, ?_, hrest, hroomy⟩
  change some (c.rest.head?, c) = some (next, c)
  rw [hrest, List.nil_append, hnext]

private theorem Reads.advance (ch : Char) (next : Option Char) :
    Reads (Reader.advance 1) [ch] () next := by
  intro c rest hrest _ hroomy
  exact ⟨c.advance 1, rfl, hroomy.advance hrest⟩

/-- Two readers in a row read their characters in a row; the first looks at what the second reads. -/
theorem Reads.bind (h : Reads r t x (t'.head?.or next)) (h' : Reads (f x) t' y next) :
    Reads (r >>= f) (t ++ t') y next := by
  intro c rest hrest hnext hroomy
  obtain ⟨c₁, hrun, hrest₁, hroomy₁⟩ := h c (t' ++ rest) (by rw [hrest, List.append_assoc])
    (by rw [List.head?_append, hnext]) hroomy
  obtain ⟨c₂, hrun', hrest₂, hroomy₂⟩ := h' c₁ rest hrest₁ hnext hroomy₁
  exact ⟨c₂, by rw [outcome_bind, hrun, Option.bind_some, hrun'], hrest₂, hroomy₂⟩

private theorem Reads.bind_pure (g : α → β) (h : Reads r t x next) :
    Reads (r >>= fun a => Pure.pure (g a)) t (g x) next := by
  have hpure := Reads.pure (g x) next
  rw [← List.append_nil t]
  exact Reads.bind (by simpa using h) hpure

end Steps

def isNumeral (c : Char) : Bool :=
  c.isDigit || c = '-' || c = '+' || c = '.' || c = 'e' || c = 'E'

private theorem isNumeral_of_isDigit {c : Char} (h : c.isDigit = true) : isNumeral c = true := by
  simp [isNumeral, h]

/-- A run from the cursor moves over characters of numbers and depends on these alone. -/
def Follows {α : Type} (r : Reader α) (c : Cursor) : Prop :=
  ∀ x c', outcome r c = some (x, c') → ∃ t, c.rest = t ++ c'.rest ∧ (∀ ch ∈ t, isNumeral ch = true) ∧
    Reads r t x c'.rest.head?

theorem takeWhile_append_of_head {α : Type} {p : α → Bool} {t rest : List α} (h : ∀ x ∈ t, p x = true)
    (hrest : ∀ x ∈ rest.head?, p x = false) : (t ++ rest).takeWhile p = t := by
  rw [List.takeWhile_append_of_pos h]
  cases rest with
  | nil => simp
  | cons x rest => simp [hrest x rfl]

private theorem takeWhile_drop_of_le {α : Type} {p : α → Bool} {xs : List α} {n : Nat}
    (h : n ≤ (xs.takeWhile p).length) : (xs.drop n).takeWhile p = (xs.takeWhile p).drop n := by
  induction xs generalizing n with
  | nil => simp
  | cons x xs ih =>
    cases n with
    | zero => rfl
    | succ n => by_cases hx : p x = true <;> simp_all

namespace Follows

variable {α β : Type} {c : Cursor}

theorem pure (x : α) : Follows (pure x : Reader α) c := by
  intro y c' h
  cases h
  exact ⟨[], rfl, by simp, Reads.pure x _⟩

private theorem failHere (fault : Fault) : Follows (Reader.failHere fault : Reader α) c := nofun

private theorem failAhead (fault : Fault) : Follows (Reader.failAhead fault : Reader α) c := nofun

private theorem peek : Follows Reader.peek c := by
  intro x c' h
  cases h
  exact ⟨[], rfl, by simp, Reads.peek _⟩

private theorem advance {ch : Char} (hhead : c.rest.head? = some ch) (hch : isNumeral ch = true) :
    Follows (Reader.advance 1) c := by
  intro x c' h
  cases h
  obtain ⟨rest, hrest⟩ := List.head?_eq_some_iff.1 hhead
  exact ⟨[ch], by simp [Cursor.advance, hrest], by simpa using hch, Reads.advance ch _⟩

theorem bind {r : Reader α} {f : α → Reader β} (h : Follows r c)
    (hf : ∀ x c₁, outcome r c = some (x, c₁) → Follows (f x) c₁) : Follows (r >>= f) c := by
  intro y c' hrun
  rw [outcome_bind, Option.bind_eq_some_iff] at hrun
  obtain ⟨⟨x, c₁⟩, hx, hy⟩ := hrun
  obtain ⟨t, ht, hnumeral, hreads⟩ := h x c₁ hx
  obtain ⟨t', ht', hnumeral', hreads'⟩ := hf x c₁ hx y c' hy
  rw [ht', List.head?_append] at hreads
  refine ⟨t ++ t', by rw [ht, ht', List.append_assoc], ?_, hreads.bind hreads'⟩
  simpa [or_imp, forall_and] using And.intro hnumeral hnumeral'

private theorem of_digits {r : Reader α} (g : List Char → Option α)
    (h : ∀ c, outcome r c = (g (c.rest.takeWhile Char.isDigit)).map fun x =>
      (x, c.advance (c.rest.takeWhile Char.isDigit).length)) : Follows r c := by
  intro x c' hrun
  have hsplit : c.rest = c.rest.takeWhile Char.isDigit ++ c.rest.dropWhile Char.isDigit :=
    List.takeWhile_append_dropWhile.symm
  have hdigits : ∀ d ∈ c.rest.takeWhile Char.isDigit, d.isDigit = true := fun d hd =>
    List.mem_takeWhile_imp hd
  have hstop : ∀ d ∈ (c.rest.dropWhile Char.isDigit).head?, d.isDigit = false := fun d hd => by
    have hnot := List.head?_dropWhile_not Char.isDigit c.rest
    rwa [hd] at hnot
  rw [h, Option.map_eq_some_iff] at hrun
  obtain ⟨y, hy, heq⟩ := hrun
  obtain ⟨rfl, rfl⟩ := Prod.mk.inj heq
  generalize c.rest.takeWhile Char.isDigit = ds at *
  generalize c.rest.dropWhile Char.isDigit = rest' at *
  have hrest' : (c.advance ds.length).rest = rest' := by simp [Cursor.advance, hsplit]
  refine ⟨ds, by rw [hrest', hsplit], fun d hd => isNumeral_of_isDigit (hdigits d hd), ?_⟩
  rw [hrest']
  intro c₂ rest hrest hnext hroomy
  rw [← hnext] at hstop
  -- the digits end where they ended before, for what follows is no digit here either
  have htake : c₂.rest.takeWhile Char.isDigit = ds := by
    rw [hrest, takeWhile_append_of_head hdigits hstop]
  exact ⟨c₂.advance ds.length, by rw [h, htake, hy]; rfl, hroomy.advance hrest⟩

end Follows

namespace Reader

variable {c : Cursor}

private theorem outcome_get (c : Cursor) : outcome (get : Reader Cursor) c = some (c, c) := rfl

theorem outcome_digits (c : Cursor) : outcome digits c =
    some (c.rest.takeWhile Char.isDigit, c.advance (c.rest.takeWhile Char.isDigit).length) := rfl

theorem outcome_peek (c : Cursor) : outcome peek c = some (c.rest.head?, c) := rfl

private theorem digits_follows : Follows digits c :=
  .of_digits some fun _ => rfl

private theorem scaled_follows (negative : Bool) (significand : Nat) (e : Int) :
    Follows (scaled negative significand e) c := by
  unfold scaled
  split
  · exact .failHere _
  · exact .pure _

/-- The value of exponent digits after the value `e`, whether they exceed the limit, and how many of
them have been read then. -/
private def exponentOf (e : Nat) : List Char → (Nat × Bool) × Nat
  | [] => ((e, false), 0)
  | d :: ds =>
    let next := e * 10 + digitValue d
    if exponentLimit < next then ((e, true), 1) else
      let (x, read) := exponentOf next ds
      (x, read + 1)

private theorem exponentDigits_outcome (e : Nat) (ds : List Char) (c : Cursor) :
    outcome (exponentDigits e ds) c = some ((exponentOf e ds).1, c.advance (exponentOf e ds).2) := by
  induction ds generalizing e c with
  | nil => simp [exponentDigits, exponentOf, Cursor.advance]
  | cons d ds ih =>
    rw [exponentDigits, exponentOf, outcome_bind, outcome_advance, Option.bind_some]
    dsimp only
    split
    · rfl
    · rw [ih]
      simp [Cursor.advance, Nat.add_comm, Nat.add_assoc]

private theorem exponentOf_read (e : Nat) (ds : List Char) :
    (exponentOf e ds).2 ≤ ds.length ∧ ((exponentOf e ds).1.2 = false → (exponentOf e ds).2 = ds.length) := by
  induction ds generalizing e with
  | nil => simp [exponentOf]
  | cons d ds ih =>
    have := ih (e * 10 + digitValue d)
    rw [exponentOf]
    dsimp only
    split <;> simp_all

private theorem exponentRest_follows (negative : Bool) (significand : Nat) (start : Int) (down : Prop)
    [Decidable down] :
    Follows (do
      match ← peek with
      | none => failHere .endInValue
      | some c =>
        if !c.isDigit then failAhead .invalidNumber
        else
          let ds := (← get).rest.takeWhile Char.isDigit
          let (e, exceeded) ← exponentDigits 0 ds
          if !exceeded then scaled negative significand (if down then start - e else start + e)
          else if significand ≠ 0 ∧ !down then failHere .numberOutOfRange
          else
            let _ ← digits
            return .float (.zero negative)) c := by
  refine .bind .peek fun next c₁ _ => ?_
  cases next with
  | none => exact .failHere _
  | some d =>
    dsimp only
    split
    · exact .failAhead _
    · refine .of_digits (fun ds =>
        if !(exponentOf 0 ds).1.2 then
          (scale? significand (if down then start - (exponentOf 0 ds).1.1 else
            start + (exponentOf 0 ds).1.1)).map fun x => .float (if negative then x.neg else x)
        else if significand ≠ 0 ∧ !down then none else some (.float (.zero negative))) fun c => ?_
      rw [outcome_bind, outcome_get, Option.bind_some, outcome_bind, exponentDigits_outcome, Option.bind_some]
      have hread := exponentOf_read 0 (c.rest.takeWhile Char.isDigit)
      have hdigits : ∀ d ∈ c.rest.takeWhile Char.isDigit, d.isDigit = true := fun d hd =>
        List.mem_takeWhile_imp hd
      have hsplit : c.rest = c.rest.takeWhile Char.isDigit ++ c.rest.dropWhile Char.isDigit :=
        List.takeWhile_append_dropWhile.symm
      dsimp only
      split
      · rename_i hnot
        rw [hread.2 (by simpa using hnot), scaled]
        cases scale? significand _ <;> rfl
      · split
        · rfl
        · -- the digits that are left are passed over
          rw [outcome_bind, outcome_digits, Option.bind_some, outcome_pure, Cursor.advance_advance]
          simp only [Cursor.advance, takeWhile_drop_of_le hread.1, List.length_drop]
          rw [Nat.add_sub_cancel' hread.1]
          rfl

private theorem exponentPart_follows (negative : Bool) (significand : Nat) (start : Int) {letter : Char}
    (hletter : letter = 'e' ∨ letter = 'E') (hhead : c.rest.head? = some letter) :
    Follows (exponentPart negative significand start) c := by
  have hnumeral : isNumeral letter = true := by rcases hletter with rfl | rfl <;> decide
  unfold exponentPart
  refine .bind (.advance hhead hnumeral) fun _ c₁ _ => .bind .peek fun sign c₂ hsign => ?_
  obtain ⟨rfl, rfl⟩ := Prod.mk.inj (Option.some.inj hsign)
  dsimp only
  split
  · rename_i hplus
    refine .bind ?_ fun _ c₂ _ =>
      exponentRest_follows negative significand start (c₁.rest.head? = some '-')
    rcases hplus with hplus | hplus
    · exact .advance hplus (by decide)
    · exact .advance hplus (by decide)
  · exact exponentRest_follows negative significand start (c₁.rest.head? = some '-')

private theorem afterDigits_follows (negative : Bool) (significand : Nat) (start : Int) :
    Follows (afterDigits negative significand start) c := by
  unfold afterDigits
  refine .bind .peek fun next c₁ hnext => ?_
  obtain ⟨rfl, rfl⟩ := Prod.mk.inj (Option.some.inj hnext)
  split
  · exact exponentPart_follows _ _ _ (.inl rfl) (by assumption)
  · exact exponentPart_follows _ _ _ (.inr rfl) (by assumption)
  · exact scaled_follows _ _ _

private theorem fractionPart_follows (negative : Bool) (significand : Nat) (start : Int)
    (hhead : c.rest.head? = some '.') : Follows (fractionPart negative significand start) c := by
  unfold fractionPart
  refine .bind (.advance hhead (by decide)) fun _ c₁ _ => .bind .peek fun next c₂ _ => ?_
  cases next with
  | none => exact .failAhead _
  | some d =>
    dsimp only
    split
    · exact .failAhead _
    · exact .bind digits_follows fun ds c₃ _ => afterDigits_follows _ _ _

private theorem afterInteger_follows (negative : Bool) (first : Char) (ds : List Char) :
    Follows (do
      let next ← peek
      if first = '0' ∧ next.any Char.isDigit then failAhead .invalidNumber
      else
        let (s, used) := absorb 0 ds
        let dropped := ds.length - used
        match next with
        | some '.' => fractionPart negative s dropped
        | some 'e' | some 'E' => exponentPart negative s dropped
        | _ => if dropped = 0 then return wholeNumber negative s else scaled negative s dropped) c := by
  refine .bind .peek fun next c₁ hnext => ?_
  obtain ⟨rfl, rfl⟩ := Prod.mk.inj (Option.some.inj hnext)
  rcases absorb 0 ds with ⟨s, used⟩
  dsimp only
  split
  · exact .failAhead _
  · split
    · exact fractionPart_follows _ _ _ (by assumption)
    · exact exponentPart_follows _ _ _ (.inl rfl) (by assumption)
    · exact exponentPart_follows _ _ _ (.inr rfl) (by assumption)
    · split
      · exact .pure _
      · exact scaled_follows _ _ _

private theorem unsignedNumber_follows (negative : Bool) : Follows (unsignedNumber negative) c := by
  unfold unsignedNumber
  refine .bind .peek fun first c₁ hfirst => ?_
  obtain ⟨rfl, rfl⟩ := Prod.mk.inj (Option.some.inj hfirst)
  cases hhead : c.rest.head? with
  | none => exact .failHere _
  | some d =>
    dsimp only
    split
    · exact .failAhead _
    · refine .bind ?_ fun ds c₂ _ => afterInteger_follows negative d ds
      split
      · rename_i hzero
        exact .bind (.advance hhead (by rw [hzero]; decide)) fun _ _ _ => .pure _
      · exact digits_follows

private theorem number_follows : Follows number c := by
  unfold number
  refine .bind .peek fun first c₁ hfirst => ?_
  obtain ⟨rfl, rfl⟩ := Prod.mk.inj (Option.some.inj hfirst)
  split
  · rename_i hminus
    exact .bind (.advance hminus (by decide)) fun _ _ _ => unsignedNumber_follows true
  · exact unsignedNumber_follows false

private theorem unsignedNumber_moves {negative : Bool} {n : Number} {c' : Cursor}
    (h : outcome (unsignedNumber negative) c = some (n, c')) : c'.rest.length < c.rest.length := by
  rw [unsignedNumber, outcome_bind, outcome_peek, Option.bind_some] at h
  cases hhead : c.rest.head? with
  | none => simp [hhead] at h
  | some d =>
    obtain ⟨cs, hcs⟩ := List.head?_eq_some_iff.1 hhead
    simp only [hhead] at h
    split at h
    · simp at h
    · rename_i hdigit
      rw [outcome_bind, Option.bind_eq_some_iff] at h
      obtain ⟨⟨ds, c₁⟩, hds, hrest⟩ := h
      obtain ⟨t, ht, _⟩ := afterInteger_follows negative d ds n c' hrest
      have hmoved : c₁.rest.length < c.rest.length := by
        split at hds
        · cases hds
          simp [Cursor.advance, hcs]
        · cases hds
          have hd : d.isDigit = true := by simpa using hdigit
          simp [Cursor.advance, hcs, hd]
      have hlength : c₁.rest.length = (t ++ c'.rest).length := congrArg List.length ht
      rw [List.length_append] at hlength
      omega

private theorem number_moves {n : Number} {c' : Cursor} (h : outcome number c = some (n, c')) :
    c'.rest.length < c.rest.length := by
  rw [number, outcome_bind, outcome_peek, Option.bind_some] at h
  split at h
  · rw [outcome_bind, outcome_advance, Option.bind_some] at h
    have hmoved := unsignedNumber_moves h
    simp only [Cursor.advance, List.length_drop] at hmoved
    omega
  · exact unsignedNumber_moves h

end Reader

/-- What a character is part of. -/
inductive Lexical where
  /-- Outside every string. -/
  | code
  /-- Inside a string. -/
  | text
  /-- Right after the backslash of an escape. -/
  | escape
  deriving DecidableEq

namespace Lexical

def step : Lexical → Char → Lexical
  | code, c => if c = '"' then text else code
  | text, c => if c = '"' then code else if c = '\\' then escape else text
  | escape, _ => text

def after (s : Lexical) (cs : List Char) : Lexical := cs.foldl step s

@[simp] theorem after_nil (s : Lexical) : s.after [] = s := rfl

@[simp] theorem after_cons (s : Lexical) (c : Char) (cs : List Char) :
    s.after (c :: cs) = (s.step c).after cs := rfl

@[simp] theorem after_append (s : Lexical) (cs cs' : List Char) :
    s.after (cs ++ cs') = (s.after cs).after cs' :=
  List.foldl_append

/-- The characters lead out of a string, and no sooner than with the last of them. -/
def Closes (s : Lexical) (t : List Char) : Prop :=
  s.after t = code ∧ ∀ p q, t = p ++ q → q ≠ [] → s.after p ≠ code

theorem Closes.cons {s : Lexical} {c : Char} {t : List Char} (hs : s ≠ code) (h : (s.step c).Closes t) :
    s.Closes (c :: t) := by
  refine ⟨h.1, fun p q heq hq => ?_⟩
  cases p with
  | nil => exact hs
  | cons x p =>
    obtain ⟨rfl, rfl⟩ := List.cons.inj heq
    exact h.2 p q rfl hq

private theorem closes_quote : text.Closes ['"'] := by
  refine ⟨rfl, fun p q heq hq => ?_⟩
  rcases List.append_eq_singleton_iff.1 heq.symm with ⟨rfl, _⟩ | ⟨_, rfl⟩
  · simp
  · exact absurd rfl hq

private theorem Closes.text_append {e t : List Char} (he : ∀ c ∈ e, c ≠ '"' ∧ c ≠ '\\')
    (h : text.Closes t) :
    text.Closes (e ++ t) := by
  induction e with
  | nil => exact h
  | cons c e ih =>
    have hc := he c (by simp)
    refine Closes.cons (by simp) ?_
    rw [step, if_neg hc.1, if_neg hc.2]
    exact ih fun d hd => he d (by simp [hd])

end Lexical

namespace Reader

open Lexical (Closes)

private theorem ne_of_hexValue? {c : Char} {n : Nat} (h : hexValue? c = some n) :
    c ≠ '"' ∧ c ≠ '\\' := by
  constructor <;> (rintro rfl; cases h)

private theorem mapM_hexValue? {cs : List Char} {ns : List Nat} (h : cs.mapM hexValue? = some ns) :
    cs.length = ns.length ∧ ∀ c ∈ cs, c ≠ '"' ∧ c ≠ '\\' := by
  induction cs generalizing ns with
  | nil =>
    cases h
    simp
  | cons c cs ih =>
    simp only [List.mapM_cons, Option.bind_eq_bind, Option.bind_eq_some_iff] at h
    obtain ⟨n, hn, ms, hms, hns⟩ := h
    cases hns
    obtain ⟨hlength, hcs⟩ := ih hms
    exact ⟨by simp [hlength], List.forall_mem_cons.2 ⟨ne_of_hexValue? hn, hcs⟩⟩

private theorem codeUnit_local {size index k : Nat} {cs : List Char}
    (h : codeUnit size index cs = .ok k) :
    ∃ e rest, cs = e ++ rest ∧ e.length = 4 ∧ (∀ c ∈ e, c ≠ '"' ∧ c ≠ '\\') ∧
      ∀ size' index' rest', index' + 4 ≤ size' → codeUnit size' index' (e ++ rest') = .ok k := by
  unfold codeUnit at h
  split at h
  · cases h
  · split at h
    · rename_i a b c d hdigits
      obtain ⟨hlength, hplain⟩ := mapM_hexValue? hdigits
      refine ⟨cs.take 4, cs.drop 4, (List.take_append_drop 4 cs).symm, hlength, hplain, ?_⟩
      intro size' index' rest' hroom
      have htake : (cs.take 4 ++ rest').take 4 = cs.take 4 := by
        rw [List.take_append_of_le_length (by rw [hlength]; rfl), List.take_take, Nat.min_self]
      rw [codeUnit, if_neg (by omega), htake, hdigits]
      exact h
    · cases h

private theorem unicodeEscape_local {size index n : Nat} {cs : List Char} {y : Char}
    (h : unicodeEscape size index cs = .ok (y, n)) :
    ∃ e rest, cs = e ++ rest ∧ e.length = n ∧ (∀ t, Closes .text t → Closes .text (e ++ t)) ∧
      ∀ size' index' rest', index' + n ≤ size' → unicodeEscape size' index' (e ++ rest') = .ok (y, n) := by
  unfold unicodeEscape at h
  cases hlead : codeUnit size index cs with
  | error fault =>
    rw [hlead] at h
    cases h
  | ok lead =>
    obtain ⟨e, rest, rfl, he, hplain, hlocal⟩ := codeUnit_local hlead
    have hdrop : ∀ rest', (e ++ rest').drop 4 = rest' := fun rest' => by rw [← he, List.drop_left]
    have hroom : ∀ {size' index' m rest'}, index' + m ≤ size' → 4 ≤ m →
        codeUnit size' index' (e ++ rest') = .ok lead := fun hm hle => hlocal _ _ _ (by omega)
    rw [hlead] at h
    simp only [bind, Except.bind, hdrop] at h
    split at h
    · cases h
    · rename_i hlow
      split at h
      · rename_i hsingle
        cases h
        refine ⟨e, rest, rfl, he, fun t ht => ht.text_append hplain, fun size' index' rest' hm => ?_⟩
        rw [unicodeEscape, hroom hm (by omega)]
        simp only [bind, Except.bind, if_neg hlow, if_pos hsingle]
        rfl
      · rename_i hpair
        split at h
        · cases h
        · cases h
        · rename_i rest
          cases htrail : codeUnit size (index + 6) rest with
          | error fault =>
            rw [htrail] at h
            cases h
          | ok trail =>
            obtain ⟨e', rest, rfl, he', hplain', hlocal'⟩ := codeUnit_local htrail
            rw [htrail] at h
            dsimp only at h
            split at h
            · cases h
            · rename_i hhigh
              obtain ⟨rfl, rfl⟩ := Prod.mk.inj (Except.ok.inj h)
              refine ⟨e ++ '\\' :: 'u' :: e', rest, by simp, by simp [he, he'], fun t ht => ?_,
                fun size' index' rest' hm => ?_⟩
              · have hinner : Closes .text ('\\' :: 'u' :: (e' ++ t)) :=
                  .cons (by simp) (.cons (by simp [Lexical.step]) (ht.text_append hplain'))
                simpa using hinner.text_append hplain
              · rw [unicodeEscape, List.append_assoc, hroom hm (by omega)]
                simp only [bind, Except.bind, if_neg hlow, if_neg hpair, hdrop, List.cons_append,
                  hlocal' size' (index' + 6) rest' (by omega), if_neg hhigh]
                rfl
        · cases h
        · cases h

private theorem escape_local {size index n : Nat} {cs : List Char} {y : Char}
    (h : escape size index cs = .ok (y, n)) :
    ∃ e rest, cs = e ++ rest ∧ e.length = n ∧ (∀ t, Closes .text t → Closes .escape (e ++ t)) ∧
      ∀ size' index' rest', index' + n ≤ size' → escape size' index' (e ++ rest') = .ok (y, n) := by
  have hsingle : ∀ x t, Closes .text t → Closes .escape ([x] ++ t) := fun x t ht => .cons (by simp) ht
  unfold escape at h
  split at h
  case h_10 rest =>
    cases hunicode : unicodeEscape size (index + 1) rest with
    | error fault =>
      rw [hunicode] at h
      cases h
    | ok p =>
      obtain ⟨x, m⟩ := p
      rw [hunicode] at h
      cases h
      obtain ⟨e, rest, rfl, rfl, hcloses, hlocal⟩ := unicodeEscape_local hunicode
      refine ⟨'u' :: e, rest, rfl, rfl, fun t ht => .cons (by simp) (hcloses t ht),
        fun size' index' rest' hm => ?_⟩
      rw [List.cons_append, escape, hlocal size' (index' + 1) rest' (by omega)]
      rfl
  all_goals cases h
  all_goals exact ⟨[_], _, rfl, rfl, hsingle _, fun _ _ _ _ => rfl⟩

/-- The body of a string is read off its own characters, and ends with the first quote that is not
escaped. -/
theorem stringBody_local {size skip index : Nat} {cs read : List Char} {s : String} {c : Cursor}
    (h : stringBody size skip cs index read = .ok (s, c)) :
    ∃ t, cs = t ++ c.rest ∧ skip ≤ t.length ∧ Closes .text (t.drop skip) ∧
      ∀ size' index' rest', index' + String.utf8Len (t ++ rest') ≤ size' →
        ∃ c', stringBody size' skip (t ++ rest') index' read = .ok (s, c') ∧ c'.rest = rest' ∧ c'.Roomy := by
  induction cs generalizing skip index read with
  | nil => cases skip <;> cases h
  | cons x cs ih =>
    have hpos := Char.utf8Size_pos x
    cases skip with
    | succ skip =>
      obtain ⟨t, rfl, hskip, hcloses, hlocal⟩ := ih h
      refine ⟨x :: t, rfl, by simpa using hskip, hcloses, fun size' index' rest' hroom => ?_⟩
      rw [List.cons_append, String.utf8Len_cons] at hroom
      exact hlocal size' (index' + 1) rest' (by omega)
    | zero =>
      rw [stringBody] at h
      split at h
      · rename_i hquote
        subst hquote
        cases h
        refine ⟨['"'], rfl, by simp, Lexical.closes_quote, fun size' index' rest' hroom => ?_⟩
        refine ⟨⟨rest', index' + 1, size'⟩, by rw [List.singleton_append, stringBody]; simp, rfl, ?_⟩
        rw [List.singleton_append, String.utf8Len_cons] at hroom
        simp only [Cursor.Roomy]
        omega
      · rename_i hquote
        split at h
        · rename_i hslash
          subst hslash
          cases hescape : escape size (index + 1) cs with
          | error fault =>
            rw [hescape] at h
            cases h
          | ok p =>
            obtain ⟨y, n⟩ := p
            rw [hescape] at h
            obtain ⟨t, rfl, hskip, hcloses, hlocal⟩ := ih h
            obtain ⟨e, rest, he, hlength, hlead, hescape'⟩ := escape_local hescape
            -- the characters of the escape are those that the rest of the body skips
            obtain ⟨t', rfl⟩ : e <+: t :=
              List.prefix_of_prefix_length_le ⟨rest, he.symm⟩ ⟨c.rest, rfl⟩ (by omega)
            rw [← hlength, List.drop_left] at hcloses
            refine ⟨'\\' :: (e ++ t'), rfl, by simp, .cons (by simp) (hlead t' hcloses),
              fun size' index' rest' hroom => ?_⟩
            rw [List.cons_append, String.utf8Len_cons] at hroom
            have hlong := length_le_utf8Len (e ++ t' ++ rest')
            have hslash : escape size' (index' + 1) (e ++ t' ++ rest') = .ok (y, n) := by
              rw [List.append_assoc]
              refine hescape' size' (index' + 1) (t' ++ rest') ?_
              simp only [List.length_append] at hlong
              omega
            obtain ⟨c', hrun, hrest'⟩ := hlocal size' (index' + 1) rest' (by omega)
            refine ⟨c', ?_, hrest'⟩
            rw [List.cons_append, stringBody, if_neg hquote, if_pos rfl, hslash]
            exact hrun
        · rename_i hslash
          split at h
          · cases h
          · rename_i hcontrol
            obtain ⟨t, rfl, _, hcloses, hlocal⟩ := ih h
            have hstep : Lexical.text.step x = .text := by simp [Lexical.step, hquote, hslash]
            refine ⟨x :: t, rfl, by simp, .cons (by simp) (by rwa [hstep]), fun size' index' rest' hroom => ?_⟩
            rw [List.cons_append, String.utf8Len_cons] at hroom
            obtain ⟨c', hrun, hrest'⟩ := hlocal size' (index' + x.utf8Size) rest' (by omega)
            refine ⟨c', ?_, hrest'⟩
            rw [List.cons_append, stringBody, if_neg hquote, if_neg hslash, if_neg hcontrol]
            exact hrun

theorem string_reads {c c' : Cursor} {s : String} (hhead : c.rest.head? = some '"')
    (h : outcome string c = some (s, c')) :
    ∃ t, c.rest = '"' :: t ++ c'.rest ∧ Closes .text t ∧ ∀ next, Reads string ('"' :: t) s next := by
  obtain ⟨cs, hcs⟩ := List.head?_eq_some_iff.1 hhead
  have hbody : stringBody c.size 0 cs (c.index + 1) [] = .ok (s, c') := by
    have hrun : stringBody c.size 0 (c.rest.drop 1) (c.index + 1) [] = .ok (s, c') :=
      toOption_eq_some_iff.1 h
    rwa [hcs, List.drop_one, List.tail_cons] at hrun
  obtain ⟨t, ht, _, hcloses, hlocal⟩ := stringBody_local hbody
  refine ⟨t, by rw [hcs, ht]; rfl, hcloses, fun next c₂ rest hrest _ hroomy => ?_⟩
  rw [Cursor.Roomy, hrest, List.cons_append, String.utf8Len_cons] at hroomy
  have := Char.utf8Size_pos '"'
  obtain ⟨c₃, hrun, hrest₃⟩ := hlocal c₂.size (c₂.index + 1) rest (by omega)
  refine ⟨c₃, toOption_eq_some_iff.2 ?_, hrest₃⟩
  change stringBody c₂.size 0 (c₂.rest.drop 1) (c₂.index + 1) [] = .ok (s, c₃)
  rw [hrest]
  exact hrun

theorem letters_reads (w : List Char) (next : Option Char) : Reads (letters w) w () next := by
  induction w with
  | nil => exact Reads.pure () next
  | cons x w ih =>
    have hstep : Reads (advance 1 >>= fun _ => letters w) (x :: w) () next :=
      (Reads.advance x _).bind ih
    intro c rest hrest hnext hroomy
    obtain ⟨c', hrun, hleft⟩ := hstep c rest hrest hnext hroomy
    refine ⟨c', ?_, hleft⟩
    rw [letters, outcome_bind, outcome_peek, hrest, Option.bind_some]
    simpa using hrun

private theorem rest_of_letters {w : List Char} {c c' : Cursor}
    (h : outcome (letters w) c = some ((), c')) :
    c.rest = w ++ c'.rest := by
  induction w generalizing c with
  | nil =>
    cases h
    rfl
  | cons x w ih =>
    rw [letters, outcome_bind, outcome_peek, Option.bind_some] at h
    cases hhead : c.rest.head? with
    | none => simp [hhead] at h
    | some d =>
      obtain ⟨cs, hcs⟩ := List.head?_eq_some_iff.1 hhead
      simp only [hhead] at h
      split at h
      · rename_i heq
        rw [outcome_bind, outcome_advance, Option.bind_some] at h
        have hrest := ih h
        simp only [Cursor.advance, hcs, List.drop_one, List.tail_cons] at hrest
        rw [hcs, hrest, heq, List.cons_append]
      · simp at h

end Reader

/-- The characters that may stand right before a token: white space, and what opens or separates in
arrays and objects. -/
def opensToken (c : Char) : Bool := Cursor.isSpace c || c = '[' || c = '\x7b' || c = ',' || c = ':'

/-- The characters of a scalar. Outside of strings none of them but the first is a `t`, and none can
stand right before a token, so that another token does not start among them. -/
structure Token (t : List Char) : Prop where
  outside : Lexical.code.after t = .code
  whole : ∀ p q, t = p ++ q → p ≠ [] → q ≠ [] → Lexical.code.after p = .code →
    q.head? ≠ some 't' ∧ ∀ c ∈ p.getLast?, opensToken c = false

namespace Token

theorem after_code {t : List Char} (h : ∀ c ∈ t, c ≠ '"') : Lexical.code.after t = .code := by
  induction t with
  | nil => rfl
  | cons c t ih =>
    rw [Lexical.after_cons, Lexical.step, if_neg (h c (by simp))]
    exact ih fun d hd => h d (by simp [hd])

private theorem of_plain {t : List Char} (hplain : ∀ c ∈ t, c ≠ '"' ∧ opensToken c = false)
    (htail : 't' ∉ t.tail) : Token t := by
  refine ⟨after_code fun c hc => (hplain c hc).1, fun p q heq hp _ _ => ⟨fun hhead => ?_, fun c hc => ?_⟩⟩
  · obtain ⟨x, p, rfl⟩ := List.exists_cons_of_ne_nil hp
    subst heq
    exact htail (by simp [List.mem_of_head? hhead])
  · exact (hplain c (by rw [heq]; exact List.mem_append_left _ (List.mem_of_getLast? hc))).2

private theorem of_numerals {t : List Char} (h : ∀ c ∈ t, isNumeral c = true) : Token t := by
  refine of_plain (fun c hc => ⟨?_, ?_⟩) fun hmem => ?_
  · rintro rfl
    exact absurd (h _ hc) (by decide)
  · rw [Bool.eq_false_iff]
    intro hopen
    simp only [opensToken, Cursor.isSpace, Bool.or_eq_true, decide_eq_true_eq] at hopen
    rcases hopen with ((((((rfl | rfl) | rfl) | rfl) | rfl) | rfl) | rfl) | rfl <;> exact absurd (h _ hc) (by decide)
  · exact absurd (h _ (List.mem_of_mem_tail hmem)) (by decide)

theorem of_string {t : List Char} (h : Lexical.text.Closes t) : Token ('"' :: t) := by
  refine ⟨h.1, fun p q heq hp hq hafter => ?_⟩
  obtain ⟨x, p, rfl⟩ := List.exists_cons_of_ne_nil hp
  obtain ⟨rfl, rfl⟩ := List.cons.inj heq
  exact absurd hafter (h.2 p q rfl hq)

end Token

namespace Reader

variable {c c' : Cursor} {v : Value}

private theorem word_reads {w : List Char} {u : Value} (hw : Token w) (hne : w ≠ [])
    (h : outcome (letters w >>= fun _ => pure u) c = some (v, c')) :
    ∃ t, c.rest = t ++ c'.rest ∧ t ≠ [] ∧ Token t ∧
      Reads (letters w >>= fun _ => pure u) t v c'.rest.head? := by
  obtain ⟨_, rfl, hletters⟩ := Schema.outcome_bind_pure_eq_some h
  exact ⟨w, rest_of_letters hletters, hne, hw, (letters_reads w _).bind_pure fun _ => v⟩

/-- A scalar is read off the characters of one token. -/
theorem scalar_reads {first : Char} (hhead : c.rest.head? = some first)
    (h : outcome (scalar first) c = some (v, c')) :
    ∃ t, c.rest = t ++ c'.rest ∧ t ≠ [] ∧ Token t ∧ Reads (scalar first) t v c'.rest.head? := by
  unfold scalar at h ⊢
  split_ifs at h ⊢ with hquote hnumber hn ht hf
  · obtain ⟨s, rfl, hs⟩ := Schema.outcome_bind_pure_eq_some h
    obtain ⟨t, hrest, hcloses, hreads⟩ := string_reads (by rw [hhead, hquote]) hs
    exact ⟨_, hrest, by simp, .of_string hcloses, (hreads _).bind_pure Value.string⟩
  · obtain ⟨n, rfl, hn⟩ := Schema.outcome_bind_pure_eq_some h
    obtain ⟨t, hrest, hnumerals, hreads⟩ := number_follows n c' hn
    refine ⟨t, hrest, ?_, .of_numerals hnumerals, hreads.bind_pure Value.number⟩
    rintro rfl
    have hmoved := number_moves hn
    rw [hrest] at hmoved
    exact absurd hmoved (by simp)
  · exact word_reads (.of_plain (by simp [opensToken, Cursor.isSpace]) (by decide)) (by simp) h
  · exact word_reads (.of_plain (by simp [opensToken, Cursor.isSpace]) (by decide)) (by simp) h
  · exact word_reads (.of_plain (by simp [opensToken, Cursor.isSpace]) (by decide)) (by simp) h
  · simp at h

end Reader

end RegionIR.Json
