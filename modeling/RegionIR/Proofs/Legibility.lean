import Mathlib
import RegionIR.Ir.Printer
/-!
# Texts that can be read back

Values are written one after the other, so a text is read back only if it shows where it ends. A value
is legible when its text, whatever comes after it, is taken for no other value and for no longer or
shorter piece of what is written. Words, lists with commas, quoted texts, types and attributes are
legible.
-/
namespace RegionIR

/-- What is written, if there is anything, starts with a character of the class. -/
def StartsIn (p : Char → Bool) (r : List Char) : Prop := ∀ c ∈ r.head?, p c = true

namespace StartsIn

variable {p q : Char → Bool}

theorem nil : StartsIn p [] := by simp [StartsIn]

theorem cons {c : Char} (h : p c = true) (r : List Char) : StartsIn p (c :: r) := by
  simpa [StartsIn] using h

theorem mono {r : List Char} (h : StartsIn p r) (imp : ∀ c, p c = true → q c = true) : StartsIn q r :=
  fun c hc => imp c (h c hc)

theorem not_cons {c : Char} {r : List Char} (h : p c = false) : ¬ StartsIn p (c :: r) := by
  simp [StartsIn, h]

end StartsIn

/-- The text of `x` tells it apart from every valid value, and shows where it ends, as long as what
follows is admissible. -/
def LegibleAt {α : Type} (valid : α → Prop) (text : α → List Char) (follow : List Char → Prop)
    (x : α) : Prop :=
  ∀ y r s, valid y → follow r → follow s → text x ++ r = text y ++ s → x = y ∧ r = s

theorem span_inj {p : Char → Bool} {l k r s : List Char} (hl : ∀ c ∈ l, p c = true)
    (hk : ∀ c ∈ k, p c = true) (hr : StartsIn (! p ·) r) (hs : StartsIn (! p ·) s)
    (h : l ++ r = k ++ s) : l = k ∧ r = s := by
  induction l generalizing k with
  | nil =>
    cases k with
    | nil => exact ⟨rfl, h⟩
    | cons c k =>
      rw [List.nil_append] at h
      have hc := hr c (by simp [h])
      simp [hk c (by simp)] at hc
  | cons c l ih =>
    cases k with
    | nil =>
      rw [List.nil_append] at h
      have hc := hs c (by simp [← h])
      simp [hl c (by simp)] at hc
    | cons d k =>
      rw [List.cons_append, List.cons_append, List.cons.injEq] at h
      obtain ⟨hlk, hrs⟩ := ih (fun x hx => hl x (by simp [hx])) (fun x hx => hk x (by simp [hx])) h.2
      exact ⟨by rw [h.1, hlk], hrs⟩

/-- A quoted text ends at the first quote, if no character is written with one in front and none is
written like the start of another. -/
theorem quoted_inj {escape : Char → List Char} {quote : Char}
    (escape_inj : ∀ {c d : Char} {r s : List Char}, escape c ++ r = escape d ++ s → c = d ∧ r = s)
    (escape_lead : ∀ c, ∃ d r, escape c = d :: r ∧ d ≠ quote) {l k r s : List Char}
    (h : l.flatMap escape ++ quote :: r = k.flatMap escape ++ quote :: s) : l = k ∧ r = s := by
  have hclosed : ∀ {c x y}, escape c ++ x ≠ quote :: y := by
    intro c x y heq
    obtain ⟨d, rest, hc, hd⟩ := escape_lead c
    rw [hc, List.cons_append, List.cons.injEq] at heq
    exact hd heq.1
  induction l generalizing k with
  | nil =>
    cases k with
    | nil => exact ⟨rfl, (List.cons.inj h).2⟩
    | cons d k =>
      rw [List.flatMap_cons, List.append_assoc] at h
      exact absurd h.symm hclosed
  | cons c l ih =>
    cases k with
    | nil =>
      rw [List.flatMap_cons, List.append_assoc] at h
      exact absurd h hclosed
    | cons d k =>
      rw [List.flatMap_cons, List.flatMap_cons, List.append_assoc, List.append_assoc] at h
      obtain ⟨hcd, hrest⟩ := escape_inj h
      obtain ⟨hlk, hrs⟩ := ih hrest
      exact ⟨by rw [hcd, hlk], hrs⟩

section Lists

variable {α : Type}

/-- Values with commas, and perhaps a gap after each, between them. -/
def separated (gap : List Char) (text : α → List Char) (xs : List α) : List Char :=
  (',' :: gap).intercalate (xs.map text)

def continued (gap : List Char) (text : α → List Char) : List α → List Char
  | [] => []
  | x :: xs => ',' :: gap ++ separated gap text (x :: xs)

theorem separated_cons (gap : List Char) (text : α → List Char) (x : α) (xs : List α) :
    separated gap text (x :: xs) = text x ++ continued gap text xs := by
  cases xs with
  | nil => simp [separated, continued]
  | cons y ys => simp [separated, continued, List.intercalate_cons_cons]

/-- A list is legible if its values are, if no value starts like what follows the list, and if what
follows does not start with a comma. -/
theorem LegibleAt.list {valid : α → Prop} {text : α → List Char} {follow : List Char → Prop}
    (first : Char → Bool) (gap : List Char) {xs : List α} (comma : ∀ r, follow (',' :: r))
    (lead : ∀ x, valid x → ∃ c r, text x = c :: r ∧ first c = true) (all : ∀ x ∈ xs, valid x)
    (each : ∀ x ∈ xs, LegibleAt valid text follow x) :
    LegibleAt (fun ys => ∀ y ∈ ys, valid y) (separated gap text)
      (fun r => follow r ∧ StartsIn (fun c => ! first c && c != ',') r) xs := by
  -- what follows the list is no further value
  have hopen : ∀ y r s, valid y → StartsIn (fun c => ! first c && c != ',') r → r ≠ text y ++ s := by
    intro y r s hy hr heq
    obtain ⟨c, rest, htext, hfirst⟩ := lead y hy
    rw [htext, List.cons_append] at heq
    subst heq
    exact StartsIn.not_cons (by simp [hfirst]) hr
  have hcomma : ∀ r s, StartsIn (fun c => ! first c && c != ',') r → r ≠ ',' :: s := by
    rintro r s hr rfl
    exact StartsIn.not_cons (by simp) hr
  have hcontinued : ∀ ys r, follow r → follow (continued gap text ys ++ r) := by
    intro ys r hr
    cases ys with
    | nil => exact hr
    | cons y ys => exact comma _
  intro ys r s hys hr hs heq
  induction xs generalizing ys with
  | nil =>
    cases ys with
    | nil => exact ⟨rfl, heq⟩
    | cons y ys =>
      rw [separated_cons, List.append_assoc] at heq
      exact absurd heq (hopen y r _ (hys y (by simp)) hr.2)
  | cons x xs ih =>
    cases ys with
    | nil =>
      rw [separated_cons, List.append_assoc] at heq
      exact absurd heq.symm (hopen x s _ (all x (by simp)) hs.2)
    | cons y ys =>
      rw [separated_cons, separated_cons, List.append_assoc, List.append_assoc] at heq
      obtain ⟨hxy, hrest⟩ := each x (by simp) y _ _ (hys y (by simp)) (hcontinued xs r hr.1)
        (hcontinued ys s hs.1) heq
      subst hxy
      cases xs with
      | nil =>
        cases ys with
        | nil => exact ⟨rfl, hrest⟩
        | cons y' ys => exact absurd hrest (hcomma r _ hr.2)
      | cons x' xs =>
        cases ys with
        | nil => exact absurd hrest.symm (hcomma s _ hs.2)
        | cons y' ys =>
          rw [continued, continued, List.append_assoc, List.append_assoc, List.append_right_inj] at hrest
          obtain ⟨htail, hrs⟩ := ih (fun z hz => all z (by simp [hz])) (fun z hz => each z (by simp [hz]))
            (y' :: ys) (fun z hz => hys z (List.mem_cons_of_mem _ hz)) hrest
          exact ⟨by rw [htail], hrs⟩

end Lists

/-- The characters of names: ASCII letters and digits, and `_ . % ^`. -/
def isWordChar (c : Char) : Bool := c.isAlphanum || c = '_' || c = '.' || c = '%' || c = '^'

def IsWord (s : String) : Prop := s ≠ "" ∧ s.toList.all isWordChar = true

instance (s : String) : Decidable (IsWord s) := inferInstanceAs (Decidable (_ ∧ _))

namespace IsWord

variable {s : String}

private theorem of_mem (h : IsWord s) : ∀ c ∈ s.toList, isWordChar c = true := List.all_eq_true.1 h.2

theorem lead (h : IsWord s) : ∃ c r, s.toList = c :: r ∧ isWordChar c = true := by
  obtain ⟨c, r, hs⟩ := List.exists_cons_of_ne_nil (fun hnil => h.1 (String.toList_injective hnil))
  exact ⟨c, r, hs, h.of_mem c (by simp [hs])⟩

theorem legible (h : IsWord s) : LegibleAt IsWord String.toList (StartsIn (! isWordChar ·)) s := by
  intro t r u ht hr hu heq
  obtain ⟨hst, hru⟩ := span_inj h.of_mem ht.of_mem hr hu heq
  exact ⟨String.toList_injective hst, hru⟩

end IsWord

def isStop (c : Char) : Bool := c = ',' || c = ')' || c = '>' || c = ']' || c = '\x7d' || c = '\n'

private theorem isWordChar_of_isStop {c : Char} (h : isStop c = true) : isWordChar c = false := by
  simp only [isStop, Bool.or_eq_true, decide_eq_true_eq] at h
  rcases h with ((((rfl | rfl) | rfl) | rfl) | rfl) | rfl <;> decide

namespace Ty

/-- A type whose names are words, none of which spells the unknown type. -/
inductive Plain : Ty → Prop
  | unit : Plain unit
  | named {name : String} (word : IsWord name) (known : name ≠ "Any") : Plain (named name)
  | generic {ctor : String} {args : List Ty} (word : IsWord ctor) (plain : ∀ t ∈ args, Plain t) :
      Plain (generic ctor args)
  | unknown : Plain unknown

def chars (t : Ty) : List Char := t.render.toList

theorem chars_eq : chars = String.toList ∘ render := rfl

private theorem renderAll_eq (ts : List Ty) : renderAll ts = ts.map render := by
  induction ts with
  | nil => rfl
  | cons t ts ih => rw [renderAll, ih, List.map_cons]

def stem : Ty → String
  | unit => ""
  | named name => name
  | generic ctor _ => ctor
  | unknown => "Any"

def tail : Ty → List Char
  | generic _ args => '<' :: (separated [] chars args ++ ['>'])
  | _ => []

private theorem chars_unit : chars unit = ['(', ')'] := rfl

theorem chars_of_ne_unit {t : Ty} (h : t ≠ unit) :
    t.chars = '!' :: '_' :: '.' :: (t.stem.toList ++ t.tail) := by
  cases t with
  | unit => exact absurd rfl h
  | named name => simp [chars, render, stem, tail]
  | generic ctor args =>
    simp [chars_eq, render, renderAll_eq, stem, tail, separated, String.toList_intercalate]
  | unknown => rfl

private theorem lead (t : Ty) : ∃ c r, t.chars = c :: r ∧ (c = '(' || c = '!') = true := by
  by_cases h : t = unit
  · exact ⟨_, _, by rw [h, chars_unit], by decide⟩
  · exact ⟨_, _, chars_of_ne_unit h, by decide⟩

private theorem Plain.word {t : Ty} (h : t.Plain) (hne : t ≠ .unit) : IsWord t.stem := by
  cases h with
  | unit => exact absurd rfl hne
  | named word _ => exact word
  | generic word _ => exact word
  | unknown => exact (by decide : IsWord "Any")

private theorem tail_starts (t : Ty) {r : List Char} (hr : StartsIn isStop r) :
    StartsIn (! isWordChar ·) (t.tail ++ r) := by
  have hstop : StartsIn (! isWordChar ·) r :=
    hr.mono fun c hc => by rw [isWordChar_of_isStop hc]; rfl
  cases t with
  | generic ctor args => exact .cons (by decide) _
  | unit => exact hstop
  | named name => exact hstop
  | unknown => exact hstop

private theorem Plain.stem_inj {t u : Ty} (ht : t.Plain) (hu : u.Plain) (hne : t ≠ .unit)
    {r s : List Char}
    (hr : StartsIn isStop r) (hs : StartsIn isStop s) (heq : t.chars ++ r = u.chars ++ s) :
    u ≠ .unit ∧ t.stem = u.stem ∧ t.tail ++ r = u.tail ++ s := by
  rw [chars_of_ne_unit hne] at heq
  have hne' : u ≠ .unit := by
    rintro rfl
    simp [chars_unit] at heq
  rw [chars_of_ne_unit hne'] at heq
  simp only [List.cons_append, List.append_assoc, List.cons.injEq, true_and] at heq
  exact ⟨hne', (ht.word hne).legible _ _ _ (hu.word hne') (tail_starts t hr) (tail_starts u hs) heq⟩

theorem legible_list (gap : List Char) {ts : List Ty} (plain : ∀ t ∈ ts, t.Plain)
    (each : ∀ t ∈ ts, LegibleAt Plain chars (StartsIn isStop) t) :
    LegibleAt (fun us => ∀ u ∈ us, Plain u) (separated gap chars) (fun r => StartsIn isStop r ∧
      StartsIn (fun c => ! (c = '(' || c = '!') && c != ',') r) ts :=
  .list (fun c => c = '(' || c = '!') gap (fun r => .cons (by decide) r) (fun t _ => lead t) plain each

/-- A type is legible before a comma, a closing bracket or the end of the line. -/
theorem Plain.legible {t : Ty} (h : t.Plain) : LegibleAt Plain chars (StartsIn isStop) t := by
  -- what follows a type opens no list of arguments
  have hangle : ∀ {r l : List Char}, StartsIn isStop r → r ≠ '<' :: l := by
    rintro r l hr rfl
    exact StartsIn.not_cons (by decide) hr
  induction h with
  | unit =>
    intro u r s hu hr hs heq
    by_cases hne : u = .unit
    · subst hne
      exact ⟨rfl, List.append_cancel_left heq⟩
    · rw [chars_of_ne_unit hne, chars_unit] at heq
      simp at heq
  | @named name word known =>
    intro u r s hu hr hs heq
    obtain ⟨hne, hstem, htail⟩ := (Plain.named word known).stem_inj hu (by simp) hr hs heq
    cases hu with
    | unit => exact absurd rfl hne
    | named _ _ => exact ⟨congrArg Ty.named hstem, htail⟩
    | generic _ _ => exact absurd htail (hangle hr)
    | unknown => exact absurd hstem known
  | @generic ctor args word plain ih =>
    intro u r s hu hr hs heq
    obtain ⟨hne, hstem, htail⟩ := (Plain.generic word plain).stem_inj hu (by simp) hr hs heq
    cases hu with
    | unit => exact absurd rfl hne
    | named _ _ => exact absurd htail.symm (hangle hs)
    | @generic ctor' args' _ plain' =>
      simp only [tail, List.cons_append, List.append_assoc, List.cons.injEq, true_and] at htail
      obtain ⟨hargs, hclose⟩ := legible_list [] plain ih args' _ _ plain'
        ⟨.cons (by decide) _, .cons (by decide) _⟩ ⟨.cons (by decide) _, .cons (by decide) _⟩ htail
      have hctor : ctor = ctor' := hstem
      exact ⟨by rw [hctor, hargs], (List.cons.inj hclose).2⟩
    | unknown => exact absurd htail.symm (hangle hs)
  | unknown =>
    intro u r s hu hr hs heq
    obtain ⟨hne, hstem, htail⟩ := Plain.unknown.stem_inj hu (by simp) hr hs heq
    cases hu with
    | unit => exact absurd rfl hne
    | named _ known => exact absurd hstem.symm known
    | generic _ _ => exact absurd htail (hangle hr)
    | unknown => exact ⟨rfl, htail⟩

end Ty

theorem isDigit_of_mem_repr {k : Nat} {c : Char} (h : c ∈ k.repr.toList) : c.isDigit = true := by
  rw [← Nat.toString_eq_repr, Nat.toString_eq_ofList_toDigits, String.toList_ofList] at h
  exact Nat.isDigit_of_mem_toDigits (by norm_num) (by norm_num) h

theorem toString_int (n : Int) :
    ∃ (sign : List Char) (k : Nat), (toString n).toList = sign ++ k.repr.toList ∧ ∀ c ∈ sign, c = '-' := by
  rw [Int.toString_eq_repr, Int.repr_eq_if]
  split
  · exact ⟨[], n.toNat, rfl, by simp⟩
  · exact ⟨['-'], (-n).toNat, String.toList_append, by simp⟩

namespace Attr

/-- The integers that 64 signed bits hold. -/
def Fits (n : Int) : Prop := -2 ^ 63 ≤ n ∧ n < 2 ^ 63

instance (n : Int) : Decidable (Fits n) := inferInstanceAs (Decidable (_ ∧ _))

/-- An attribute without floating point numbers, whose integers are held as numbers where they fit and
as their digits where they do not, and whose types are plain. -/
inductive Plain : Attr → Prop
  | text (s : String) : Plain (text s)
  | int {n : Int} (fits : Fits n) : Plain (int n)
  | bigInt {n : Int} (large : ¬ Fits n) : Plain (bigInt (toString n))
  | bool (b : Bool) : Plain (bool b)
  | unit : Plain unit
  | list {items : List Attr} (plain : ∀ a ∈ items, Plain a) : Plain (list items)
  | functionType {params : List Ty} {result : Ty} (params_plain : ∀ t ∈ params, t.Plain)
      (result_plain : result.Plain) : Plain (functionType params result)

def chars (a : Attr) : List Char := a.render.toList

theorem chars_eq : chars = String.toList ∘ render := rfl

private theorem renderAll_eq (items : List Attr) : renderAll items = items.map render := by
  induction items with
  | nil => rfl
  | cons a items ih => rw [renderAll, ih, List.map_cons]

theorem chars_text (s : String) :
    chars (text s) = '"' :: (s.toList.flatMap escapedChar ++ ['"']) := by
  simp [chars, render, quote]

theorem chars_list (items : List Attr) :
    chars (list items) = '[' :: (separated [' '] chars items ++ [']']) := by
  simp [chars_eq, render, renderAll_eq, separated, String.toList_intercalate]

theorem chars_functionType (params : List Ty) (result : Ty) :
    chars (functionType params result) =
      '(' :: (separated [' '] Ty.chars params ++ [')', ' ', '-', '>', ' '] ++ result.chars) := by
  simp [chars, Ty.chars_eq, render, separated, String.toList_intercalate]

private theorem escapedChar_inj {c d : Char} {r s : List Char}
    (h : escapedChar c ++ r = escapedChar d ++ s) : c = d ∧ r = s := by
  unfold escapedChar at h
  split_ifs at h <;> grind

private theorem escapedChar_lead (c : Char) : ∃ d r, escapedChar c = d :: r ∧ d ≠ '"' := by
  unfold escapedChar
  split_ifs with h
  all_goals simp [*]

private theorem escaped_inj {l k r s : List Char}
    (h : l.flatMap escapedChar ++ '"' :: r = k.flatMap escapedChar ++ '"' :: s) : l = k ∧ r = s :=
  quoted_inj escapedChar_inj escapedChar_lead h

/-- The mark that attributes of several parts open with. -/
private def opener : Attr → Option Char
  | text _ => some '"'
  | list _ => some '['
  | functionType .. => some '('
  | _ => none

private def mark (c : Char) : Option Char := if c = '"' || c = '[' || c = '(' then some c else none

private def isScalarChar (c : Char) : Bool := isWordChar c || c = '-'

private theorem Plain.scalar {a : Attr} (h : a.Plain) (hopen : a.opener = none) :
    a.chars ≠ [] ∧ ∀ c ∈ a.chars, isScalarChar c = true := by
  have hint : ∀ n : Int, (toString n).toList ≠ [] ∧ ∀ c ∈ (toString n).toList, isScalarChar c = true := by
    intro n
    obtain ⟨sign, k, hn, hsign⟩ := toString_int n
    rw [hn]
    refine ⟨by simp, fun c hc => ?_⟩
    rcases List.mem_append.1 hc with hc | hc
    · simp [isScalarChar, hsign c hc]
    · simp [isScalarChar, isWordChar, Char.isAlphanum, isDigit_of_mem_repr hc]
  have hword : ∀ {s : String}, IsWord s → s.toList ≠ [] ∧ ∀ c ∈ s.toList, isScalarChar c = true := by
    intro s hs
    obtain ⟨c, r, hcr, _⟩ := hs.lead
    exact ⟨by simp [hcr], fun c hc => by simp [isScalarChar, hs.of_mem c hc]⟩
  cases h with
  | text s => simp [opener] at hopen
  | int fits => exact hint _
  | bigInt large => exact hint _
  | bool b =>
    cases b with
    | false => exact hword (by decide : IsWord "false")
    | true => exact hword (by decide : IsWord "true")
  | unit => exact hword (by decide : IsWord "unit")
  | list plain => simp [opener] at hopen
  | functionType _ _ => simp [opener] at hopen

private theorem isScalarChar_of_isStop {c : Char} (h : isStop c = true) : isScalarChar c = false := by
  have hne : c ≠ '-' := by
    rintro rfl
    exact absurd h (by decide)
  simp [isScalarChar, isWordChar_of_isStop h, hne]

private theorem mark_of_isScalarChar {c : Char} (h : isScalarChar c = true) : mark c = none := by
  unfold mark
  split_ifs with hc
  · simp only [Bool.or_eq_true, decide_eq_true_eq] at hc
    rcases hc with (rfl | rfl) | rfl <;> exact absurd h (by decide)
  · rfl

private theorem Plain.lead {a : Attr} (h : a.Plain) :
    ∃ c r, a.chars = c :: r ∧ a.opener = mark c ∧ isStop c = false := by
  have hscalar : a.opener = none → ∃ c r, a.chars = c :: r ∧ a.opener = mark c ∧ isStop c = false := by
    intro hopen
    obtain ⟨hne, hall⟩ := h.scalar hopen
    obtain ⟨c, r, hcr⟩ := List.exists_cons_of_ne_nil hne
    have hc : isScalarChar c = true := hall c (by simp [hcr])
    refine ⟨c, r, hcr, by rw [hopen, mark_of_isScalarChar hc], Bool.eq_false_iff.2 fun hstop => ?_⟩
    rw [isScalarChar_of_isStop hstop] at hc
    cases hc
  cases h with
  | text s => exact ⟨_, _, chars_text s, rfl, by decide⟩
  | list plain => exact ⟨_, _, chars_list _, rfl, by decide⟩
  | functionType _ _ => exact ⟨_, _, chars_functionType _ _, rfl, by decide⟩
  | int fits => exact hscalar rfl
  | bigInt large => exact hscalar rfl
  | bool b => exact hscalar rfl
  | unit => exact hscalar rfl

private def ofScalar (s : String) : Attr :=
  match s.toInt? with
  | some n => if Fits n then int n else bigInt (toString n)
  | none => if s = "true" then bool true else if s = "false" then bool false else unit

private theorem Plain.ofScalar_render {a : Attr} (h : a.Plain) (hopen : a.opener = none) :
    ofScalar a.render = a := by
  cases h with
  | text s => simp [opener] at hopen
  | int fits => simp [ofScalar, render, fits]
  | bigInt large => simp [ofScalar, render, large]
  | bool b =>
    cases b with
    | false => cbv
    | true => cbv
  | unit => cbv
  | list plain => simp [opener] at hopen
  | functionType _ _ => simp [opener] at hopen

private theorem Plain.opener_eq {a b : Attr} (ha : a.Plain) (hb : b.Plain) {r s : List Char}
    (heq : a.chars ++ r = b.chars ++ s) : a.opener = b.opener := by
  obtain ⟨c, l, hc, hac, _⟩ := ha.lead
  obtain ⟨d, k, hd, hbd, _⟩ := hb.lead
  rw [hc, hd, List.cons_append, List.cons_append, List.cons.injEq] at heq
  rw [hac, hbd, heq.1]

private theorem Plain.legible_scalar {a : Attr} (h : a.Plain) (hopen : a.opener = none) :
    LegibleAt Plain chars (StartsIn isStop) a := by
  intro b r s hb hr hs heq
  have hopen' : b.opener = none := by rw [← h.opener_eq hb heq, hopen]
  have hstop : ∀ {l}, StartsIn isStop l → StartsIn (! isScalarChar ·) l :=
    fun hl => hl.mono fun c hc => by rw [isScalarChar_of_isStop hc]; rfl
  obtain ⟨hchars, hrs⟩ := span_inj (h.scalar hopen).2 (hb.scalar hopen').2 (hstop hr) (hstop hs) heq
  have hrender : a.render = b.render := String.toList_injective hchars
  exact ⟨by rw [← h.ofScalar_render hopen, hrender, hb.ofScalar_render hopen'], hrs⟩

theorem Plain.legible {a : Attr} (h : a.Plain) : LegibleAt Plain chars (StartsIn isStop) a := by
  induction h with
  | text s =>
    intro b r u hb hr hu heq
    have hopen := (Plain.text s).opener_eq hb heq
    cases b with simp only [opener, reduceCtorEq, Option.some.injEq, Char.reduceEq] at hopen
    | text t =>
      simp only [chars_text, List.cons_append, List.append_assoc, List.nil_append, List.cons.injEq,
        true_and] at heq
      obtain ⟨hst, hru⟩ := escaped_inj heq
      exact ⟨congrArg Attr.text (String.toList_injective hst), hru⟩
  | int fits => exact (Plain.int fits).legible_scalar rfl
  | bigInt large => exact (Plain.bigInt large).legible_scalar rfl
  | bool b => exact (Plain.bool b).legible_scalar rfl
  | unit => exact Plain.unit.legible_scalar rfl
  | @list items plain ih =>
    intro b r u hb hr hu heq
    have hopen := (Plain.list plain).opener_eq hb heq
    cases hb with simp only [opener, reduceCtorEq, Option.some.injEq, Char.reduceEq] at hopen
    | @list items' plain' =>
      simp only [chars_list, List.cons_append, List.append_assoc, List.cons.injEq, true_and] at heq
      have hlead : ∀ a : Attr, a.Plain → ∃ c l, a.chars = c :: l ∧ (! isStop c) = true := by
        intro a ha
        obtain ⟨c, l, hc, _, hstop⟩ := ha.lead
        exact ⟨c, l, hc, by rw [hstop]; rfl⟩
      obtain ⟨hitems, hrest⟩ := LegibleAt.list (! isStop ·) [' '] (fun l => .cons (by decide) l) hlead
        plain ih items' _ _ plain' ⟨.cons (by decide) _, .cons (by decide) _⟩
        ⟨.cons (by decide) _, .cons (by decide) _⟩ heq
      exact ⟨by rw [hitems], (List.cons.inj hrest).2⟩
  | @functionType params result params_plain result_plain =>
    intro b r u hb hr hu heq
    have hopen := (Plain.functionType params_plain result_plain).opener_eq hb heq
    cases hb with simp only [opener, reduceCtorEq, Option.some.injEq, Char.reduceEq] at hopen
    | @functionType params' result' params_plain' result_plain' =>
      simp only [chars_functionType, List.cons_append, List.append_assoc, List.cons.injEq, true_and] at heq
      obtain ⟨hparams, hrest⟩ := Ty.legible_list [' '] params_plain
        (fun t ht => (params_plain t ht).legible) params' _ _ params_plain'
        ⟨.cons (by decide) _, .cons (by decide) _⟩ ⟨.cons (by decide) _, .cons (by decide) _⟩ heq
      simp only [List.cons.injEq, true_and, List.nil_append] at hrest
      obtain ⟨hresult, hru⟩ := result_plain.legible _ _ _ result_plain' hr hu hrest
      exact ⟨by rw [hparams, hresult], hru⟩

end Attr

end RegionIR
