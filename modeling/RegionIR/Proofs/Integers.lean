import RegionIR.Proofs.Flat
import RegionIR.Proofs.Varying
/-!
# Integer literals

An integer is read exactly as long as it fits a word: from `-2^63` on and below `2^64`, but for a minus
sign before zero. Any other is a double, or out of range. So it is with the literal of a constant, which
stands in a tree as the integer that the text has in its place.
-/
namespace RegionIR

namespace Json

open Schema (outcome outcome_bind outcome_pure outcome_advance)

def integerText (negative : Bool) (m : Nat) : String := (if negative then "-" else "") ++ toString m

def integerValue (negative : Bool) (m : Nat) : Int := if negative then -m else m

/-- The number of an integer, exact or a double; nothing when it is out of range. -/
private def integerNumber? (negative : Bool) (m : Nat) : Option Number :=
  let ds := Nat.toDigits 10 m
  let (s, used) := absorb 0 ds
  if ds.length - used = 0 then some (Reader.wholeNumber negative s)
  else (scale? s (ds.length - used : Nat)).map fun x => .float (if negative then x.neg else x)

section Significands

variable {ds : List Char} {s : Nat}

private theorem le_ofDigitChars (ds : List Char) (s : Nat) : s ≤ Nat.ofDigitChars 10 ds s := by
  induction ds generalizing s with
  | nil => exact le_rfl
  | cons d ds ih =>
    have := ih (10 * s + (d.toNat - '0'.toNat))
    rw [Nat.ofDigitChars_cons]
    omega

private theorem ofDigitChars_cons_eq (d : Char) (ds : List Char) (s : Nat) :
    Nat.ofDigitChars 10 (d :: ds) s = Nat.ofDigitChars 10 ds (s * 10 + digitValue d) := by
  rw [Nat.ofDigitChars_cons, Nat.mul_comm, digitValue]

private theorem absorb_of_lt (h : Nat.ofDigitChars 10 ds s < wordCount) :
    absorb s ds = (Nat.ofDigitChars 10 ds s, ds.length) := by
  induction ds generalizing s with
  | nil => rfl
  | cons d ds ih =>
    rw [ofDigitChars_cons_eq] at h ⊢
    have hnext := (le_ofDigitChars ds _).trans_lt h
    rw [absorb, if_pos hnext, ih h]
    rfl

/-- Of digits whose value does not fit a word some are dropped. -/
theorem absorb_of_le (hs : s < wordCount) (h : wordCount ≤ Nat.ofDigitChars 10 ds s) :
    (absorb s ds).2 < ds.length := by
  induction ds generalizing s with
  | nil => exact absurd hs (Nat.not_lt.2 h)
  | cons d ds ih =>
    rw [ofDigitChars_cons_eq] at h
    rw [absorb, List.length_cons]
    dsimp only
    split
    · rename_i hnext
      exact Nat.succ_lt_succ (ih hnext h)
    · exact Nat.succ_pos _

private theorem integerNumber?_of_lt {negative : Bool} {m : Nat} (h : m < wordCount) :
    integerNumber? negative m = some (Reader.wholeNumber negative m) := by
  have hvalue : Nat.ofDigitChars 10 (Nat.toDigits 10 m) 0 = m := Nat.ofDigitChars_ten_toDigits
  rw [integerNumber?, absorb_of_lt (by rwa [hvalue]), hvalue]
  simp

private theorem integerNumber?_of_le {negative : Bool} {m : Nat} (h : wordCount ≤ m) {x : Number}
    (hx : integerNumber? negative m = some x) : ∃ f, x = .float f := by
  have hvalue : Nat.ofDigitChars 10 (Nat.toDigits 10 m) 0 = m := Nat.ofDigitChars_ten_toDigits
  have hdropped : (absorb 0 (Nat.toDigits 10 m)).2 < (Nat.toDigits 10 m).length :=
    absorb_of_le (by decide) (by rwa [hvalue])
  rw [integerNumber?] at hx
  dsimp only at hx
  rw [if_neg (by omega), Option.map_eq_some_iff] at hx
  obtain ⟨f, _, rfl⟩ := hx
  exact ⟨_, rfl⟩

end Significands

private theorem toDigits_head_zero {m : Nat} (h : (Nat.toDigits 10 m).head? = some '0') :
    Nat.toDigits 10 m = ['0'] := by
  induction m using Nat.strongRecOn with
  | ind m ih =>
    by_cases hm : m < 10
    · rw [Nat.toDigits_of_lt_base hm] at h ⊢
      rw [Option.some.inj h]
    · rw [Nat.toDigits_of_base_le (by decide) (by omega)] at h
      rw [List.head?_append_of_ne_nil _ Nat.toDigits_ne_nil] at h
      have hzero := ih (m / 10) (by omega) h
      have hvalue : Nat.ofDigitChars 10 (Nat.toDigits 10 (m / 10)) 0 = m / 10 := Nat.ofDigitChars_ten_toDigits
      rw [hzero] at hvalue
      have : m / 10 = 0 := hvalue.symm
      omega

private theorem isDigit_of_mem_toDigits {m : Nat} {d : Char} (h : d ∈ Nat.toDigits 10 m) :
    d.isDigit = true :=
  Nat.isDigit_of_mem_toDigits (by decide) (by decide) h

private theorem head?_toDigits (m : Nat) :
    ∃ d, (Nat.toDigits 10 m).head? = some d ∧ d.isDigit = true := by
  obtain ⟨d, ds, hds⟩ := List.exists_cons_of_ne_nil (Nat.toDigits_ne_nil (b := 10) (n := m))
  exact ⟨d, by rw [hds]; rfl, isDigit_of_mem_toDigits (by rw [hds]; simp)⟩

private theorem toList_toString (m : Nat) : (toString m).toList = Nat.toDigits 10 m := by
  rw [Nat.toString_eq_ofList_toDigits, String.toList_ofList]

private theorem not_digit_of_isDelimiter {c : Char} (h : isDelimiter c = true) :
    c.isDigit = false ∧ c ≠ '.' ∧ c ≠ 'e' ∧ c ≠ 'E' := by
  simp only [isDelimiter, Cursor.isSpace, Bool.or_eq_true, decide_eq_true_eq] at h
  rcases h with (((((rfl | rfl) | rfl) | rfl) | rfl) | rfl) | rfl <;> decide

namespace Reader

variable {c : Cursor} {post : List Char} {m : Nat}

private theorem outcome_integerDigits {d : Char} (hrest : c.rest = Nat.toDigits 10 m ++ post)
    (hhead : (Nat.toDigits 10 m).head? = some d) (hpost : ∀ c ∈ post.head?, isDelimiter c = true) :
    outcome (if d = '0' then do advance 1; return ['0'] else digits) c =
      some (Nat.toDigits 10 m, c.advance (Nat.toDigits 10 m).length) := by
  split
  · rename_i hzero
    subst hzero
    rw [toDigits_head_zero hhead]
    rfl
  · have htake : c.rest.takeWhile Char.isDigit = Nat.toDigits 10 m := by
      rw [hrest]
      exact takeWhile_append_of_head (fun x hx => isDigit_of_mem_toDigits hx)
        fun x hx => (not_digit_of_isDelimiter (hpost x hx)).1
    rw [outcome_digits, htake]

private theorem outcome_unsignedNumber (negative : Bool) (hrest : c.rest = Nat.toDigits 10 m ++ post)
    (hpost : ∀ c ∈ post.head?, isDelimiter c = true) :
    outcome (unsignedNumber negative) c =
      (integerNumber? negative m).map fun x => (x, c.advance (Nat.toDigits 10 m).length) := by
  obtain ⟨d, hhead, hdigit⟩ := head?_toDigits m
  have hnext : (c.advance (Nat.toDigits 10 m).length).rest.head? = post.head? := by
    simp [Cursor.advance, hrest]
  rw [unsignedNumber, outcome_bind, outcome_peek, Option.bind_some, hrest, List.head?_append, hhead]
  simp only [Option.some_or, hdigit, Bool.not_true, Bool.false_eq_true, if_false]
  rw [outcome_bind, outcome_integerDigits hrest hhead hpost, Option.bind_some]
  rw [outcome_bind, outcome_peek, Option.bind_some, hnext]
  have hstop : ∀ x, post.head? = some x → x.isDigit = false ∧ x ≠ '.' ∧ x ≠ 'e' ∧ x ≠ 'E' :=
    fun x hx => not_digit_of_isDelimiter (hpost x hx)
  have hany : ¬(d = '0' ∧ post.head?.any Char.isDigit = true) := by
    rintro ⟨-, hany⟩
    cases hx : post.head? with
    | none => simp [hx] at hany
    | some x => simp [hx, (hstop x hx).1] at hany
  rw [integerNumber?]
  rcases absorb 0 (Nat.toDigits 10 m) with ⟨s, used⟩
  dsimp only
  rw [if_neg hany]
  split
  · exact absurd rfl (hstop _ (by assumption)).2.1
  · exact absurd rfl (hstop _ (by assumption)).2.2.1
  · exact absurd rfl (hstop _ (by assumption)).2.2.2
  · split
    · rfl
    · rw [scaled]
      cases scale? s _ <;> rfl

end Reader

private theorem head?_integerText (negative : Bool) (m : Nat) :
    ∃ first, (integerText negative m).toList.head? = some first ∧ (first = '-' ∨ first.isDigit = true) ∧
      (first = '-' ↔ negative = true) := by
  rw [integerText, String.toList_append, toList_toString]
  cases negative with
  | true => exact ⟨'-', rfl, .inl rfl, by simp⟩
  | false =>
    obtain ⟨d, hhead, hdigit⟩ := head?_toDigits m
    refine ⟨d, hhead, .inr hdigit, ?_⟩
    simp only [Bool.false_eq_true, iff_false]
    rintro rfl
    cases hdigit

private theorem spells_integer (negative : Bool) (m : Nat) {post : List Char}
    (hpost : ∀ c ∈ post.head?, isDelimiter c = true) :
    Spells (integerText negative m).toList post ((integerNumber? negative m).map .number) := by
  intro c first _ hrest hfirst
  obtain ⟨first', hfirst', hnumeric, hminus⟩ := head?_integerText negative m
  cases hfirst.symm.trans hfirst'
  have hquote : first ≠ '"' := by
    rintro rfl
    simp at hnumeric
  have hhead : c.rest.head? = some first := by rw [hrest, List.head?_append, hfirst]; rfl
  have hnumber : (outcome Reader.number c).map (fun run => (run.1, run.2.rest)) =
      (integerNumber? negative m).map fun x => (x, post) := by
    rw [Reader.number, outcome_bind, Reader.outcome_peek, Option.bind_some, hhead]
    rw [integerText, String.toList_append, toList_toString] at hrest
    cases negative with
    | true =>
      rw [if_pos (by rw [hminus.2 rfl]), outcome_bind, outcome_advance, Option.bind_some]
      have hrest' : (c.advance 1).rest = Nat.toDigits 10 m ++ post := by simp [Cursor.advance, hrest]
      rw [Reader.outcome_unsignedNumber true hrest' hpost, Option.map_map]
      simp [Function.comp_def, Cursor.advance, hrest]
    | false =>
      have hne : some first ≠ some '-' := fun heq => by simpa using hminus.1 (Option.some.inj heq)
      rw [if_neg hne]
      have hrest' : c.rest = Nat.toDigits 10 m ++ post := by simpa using hrest
      rw [Reader.outcome_unsignedNumber false hrest' hpost, Option.map_map]
      simp [Function.comp_def, Cursor.advance, hrest']
  rw [Reader.scalar, if_neg hquote, if_pos hnumeric, outcome_bind]
  have hpure : ∀ run : Option (Number × Cursor),
      (run.bind fun x => outcome (pure (.number x.1) : Reader Value) x.2).map (fun run => (run.1, run.2.rest)) =
        (run.map fun run => (run.1, run.2.rest)).map fun x => (.number x.1, x.2) := by
    intro run
    cases run <;> rfl
  rw [hpure, hnumber]
  simp [Function.comp_def]

end Json

/-- The literal of an integer: itself if it fits 64 signed bits, else its digits. -/
def Literal.ofInt (n : Int) : Literal :=
  if -2 ^ 63 ≤ n ∧ n < 2 ^ 63 then .int n else .bigInt (toString n)

namespace Schema

open Json

/-- The integers that keep their value: the signed and the unsigned words, but for a negated zero. -/
def KeepsValue (negative : Bool) (m : Nat) : Prop :=
  ¬(negative = true ∧ m = 0) ∧ -2 ^ 63 ≤ integerValue negative m ∧ integerValue negative m < 2 ^ 64

variable {negative : Bool} {m : Nat}

private theorem keepsValue_false : KeepsValue false m ↔ m < wordCount := by
  have hword : wordCount = 2 ^ 64 := rfl
  simp only [KeepsValue, integerValue, Bool.false_eq_true, if_false, false_and, not_false_eq_true, true_and]
  omega

private theorem keepsValue_true : KeepsValue true m ↔ ¬(m = 0 ∨ twoTo 63 < m) := by
  have htwo : twoTo 63 = 2 ^ 63 := rfl
  simp only [KeepsValue, integerValue, if_true, true_and]
  omega

private theorem literal_of_keepsValue (h : KeepsValue negative m) :
    (integerNumber? negative m).map numberLiteral = some (.ofInt (integerValue negative m)) := by
  have hword : wordCount = 2 ^ 64 := rfl
  have htwo : twoTo 63 = 2 ^ 63 := rfl
  cases negative with
  | false =>
    rw [integerNumber?_of_lt (keepsValue_false.1 h)]
    simp [Reader.wholeNumber, numberLiteral, integerLiteral, Literal.ofInt, integerValue, htwo]
  | true =>
    have hwhole := keepsValue_true.1 h
    rw [integerNumber?_of_lt (by omega), Option.map_some, Reader.wholeNumber, if_neg (by simp),
      if_neg hwhole, numberLiteral, integerLiteral, Literal.ofInt, integerValue, if_pos rfl,
      if_pos (by omega), if_pos (by omega)]

private theorem float_of_not_keepsValue (h : ¬KeepsValue negative m) {x : Number}
    (hx : integerNumber? negative m = some x) : ∃ f, numberLiteral x = .float f := by
  by_cases hm : m < wordCount
  · rw [integerNumber?_of_lt hm] at hx
    cases negative with
    | false => exact absurd (keepsValue_false.2 hm) h
    | true =>
      rw [keepsValue_true, not_not] at h
      rw [Reader.wholeNumber, if_neg (by simp), if_pos h] at hx
      cases hx
      exact ⟨_, rfl⟩
  · obtain ⟨f, rfl⟩ := integerNumber?_of_le (Nat.not_lt.1 hm) hx
    exact ⟨f, rfl⟩

end Schema

/-- A constant operator of integer type that prints the given integer in decimal. -/
structure Head.PrintsInteger (h : Head) (n : Int) : Prop where
  opcode : h.opcode = "py.constant"
  type : h.resultText = "!_.int"
  value : (h.attrs.get? "value").map Attr.render = some (toString n)

private theorem Literal.ofInt_ty (n : Int) : (Literal.ofInt n).ty = .named "int" := by
  rw [ofInt]
  split <;> rfl

private theorem Literal.ofInt_render (n : Int) : (Literal.ofInt n).attr.render = toString n := by
  rw [ofInt]
  split <;> rfl

private theorem Literal.ofInt_ne_float (n : Int) (x : Binary64) : Literal.ofInt n ≠ .float x := by
  rw [ofInt]
  split <;> nofun

private theorem constantHead_printsInteger (n : Int) (kind : Option String) (v : ValueId) :
    ((constantHead (.ofInt n) kind).withResult v (.named "int")).PrintsInteger n := by
  cases kind with
  | none => exact ⟨rfl, rfl, by simp [constantHead, Literal.ofInt_render]⟩
  | some k =>
    exact ⟨rfl, rfl, by simp [constantHead, Attrs.get?_set_of_ne, Literal.ofInt_render]⟩

private theorem Lower.operand_constant (l : Literal) (kind : Option String) (span : Option Span) :
    Lower.operand (.mk (.constant l kind) span) = Lower.emitResult (constantHead l kind) l.ty := rfl

private theorem Lower.operand_ofInt (n : Int) (kind : Option String) (span : Option Span) (s : State) :
    ∃ h : Head, h.PrintsInteger n ∧ Lower.operand (.mk (.constant (.ofInt n) kind) span) s =
      .ok (.numbered s.counter, .named "int") (({ s with counter := s.counter + 1 }).emit (.ofHead h)) := by
  refine ⟨_, constantHead_printsInteger n kind (.numbered s.counter), ?_⟩
  rw [Lower.operand_constant, Literal.ofInt_ty]
  rfl

/-- Where the two truth values make two units of a text, there a constant has its value. An integer in
that place is the literal of the constant, exactly if it keeps its value, and such a constant is printed
as the integer. With any other integer there the literal is a double, or there is no tree. -/
theorem integer_literal_exact_iff {pre post : String} {u₁ u₀ : SourceUnit}
    (houtside : Json.Lexical.code.after pre.toList = .code)
    (htrue : SourceUnit.load (pre ++ "true" ++ post) = .ok u₁)
    (hfalse : SourceUnit.load (pre ++ "false" ++ post) = .ok u₀) (hplace : u₁ ≠ u₀) :
    ∃ place, Schema.VariesUnit place ∧ place (.bool true) = u₁ ∧ place (.bool false) = u₀ ∧
      ∀ (negative : Bool) (m : Nat),
        (SourceUnit.load (pre ++ Json.integerText negative m ++ post) =
            .ok (place (.ofInt (Json.integerValue negative m))) ↔ Schema.KeepsValue negative m) ∧
        (¬Schema.KeepsValue negative m → ∀ u,
          SourceUnit.load (pre ++ Json.integerText negative m ++ post) = .ok u → ∃ x, u = place (.float x)) ∧
        ∀ kind span s, ∃ h : Head, h.PrintsInteger (Json.integerValue negative m) ∧
          Lower.operand (.mk (.constant (.ofInt (Json.integerValue negative m)) kind) span) s =
            .ok (.numbered s.counter, .named "int") (({ s with counter := s.counter + 1 }).emit (.ofHead h)) := by
  obtain ⟨place, hvaries, hplace₁, hplace₀, hdelimited, hload⟩ :=
    Schema.exists_place houtside htrue hfalse hplace
  refine ⟨place, hvaries, hplace₁, hplace₀, fun negative m => ?_⟩
  obtain ⟨first, hhead, hnumeric, _⟩ := Json.head?_integerText negative m
  have hbare : Json.isBare first = true := by rcases hnumeric with rfl | hdigit <;> simp [Json.isBare, *]
  have hnumber := hload _ first _ hhead hbare (Json.spells_integer negative m hdelimited)
  have hfloat : ¬Schema.KeepsValue negative m → ∀ u,
      SourceUnit.load (pre ++ Json.integerText negative m ++ post) = .ok u → ∃ x, u = place (.float x) := by
    intro hnot u hu
    rw [hu, Schema.toOption_ok, eq_comm, Option.map_eq_some_iff] at hnumber
    obtain ⟨x, hx, rfl⟩ := hnumber
    obtain ⟨f, hf⟩ := Schema.float_of_not_keepsValue hnot hx
    exact ⟨f, by rw [hf]⟩
  refine ⟨⟨fun hexact => ?_, fun hkeeps => ?_⟩, hfloat, Lower.operand_ofInt _⟩
  · by_contra hnot
    obtain ⟨x, hx⟩ := hfloat hnot _ hexact
    exact Literal.ofInt_ne_float _ x (hvaries.injective hx)
  · obtain ⟨x, hx, hliteral⟩ := Option.map_eq_some_iff.1 (Schema.literal_of_keepsValue hkeeps)
    rw [← Schema.toOption_eq_some_iff, hnumber, hx, Option.map_some, hliteral]

/-- The text before the value of the only constant of a module. -/
def constantBefore : String :=
  "\x7b\"_t\":\"Module\",\"body\":[\x7b\"_t\":\"Expr\",\"value\":\x7b\"_t\":\"Constant\",\"value\": "

def constantAfter : String := ", \"kind\":null\x7d\x7d]\x7d"

private def constantValue (w : Json.Value) : Json.Value :=
  .object [("_t", .string "Module"), ("body", .array [.object [("_t", .string "Expr"),
    ("value", .object [("_t", .string "Constant"), ("value", w), ("kind", .null)])]])]

def constantUnit (l : Literal) : SourceUnit := .module [.mk (.expr (.mk (.constant l none) none)) none]

set_option maxRecDepth 10000 in
private theorem parse_trueConstant :
    Json.parse (constantBefore ++ "true" ++ constantAfter) = .ok (constantValue (.bool true)) := by cbv

set_option maxRecDepth 10000 in
private theorem parse_falseConstant :
    Json.parse (constantBefore ++ "false" ++ constantAfter) = .ok (constantValue (.bool false)) := by cbv

private theorem load_trueConstant :
    SourceUnit.load (constantBefore ++ "true" ++ constantAfter) = .ok (constantUnit (.bool true)) :=
  Schema.load_eq_ok_iff.2 ⟨_, parse_trueConstant, rfl⟩

private theorem load_falseConstant :
    SourceUnit.load (constantBefore ++ "false" ++ constantAfter) = .ok (constantUnit (.bool false)) :=
  Schema.load_eq_ok_iff.2 ⟨_, parse_falseConstant, rfl⟩

/-- The first integer beyond the signed words is kept by its digits. -/
theorem constant_keeps_digits :
    Json.Lexical.code.after constantBefore.toList = .code ∧
      SourceUnit.load (constantBefore ++ "true" ++ constantAfter) = .ok (constantUnit (.bool true)) ∧
      SourceUnit.load (constantBefore ++ "false" ++ constantAfter) = .ok (constantUnit (.bool false)) ∧
      constantUnit (.bool true) ≠ constantUnit (.bool false) ∧ Schema.KeepsValue false (2 ^ 63) ∧
      ∃ place, Schema.VariesUnit place ∧ place (.bool true) = constantUnit (.bool true) ∧
        place (.bool false) = constantUnit (.bool false) ∧
        SourceUnit.load (constantBefore ++ Json.integerText false (2 ^ 63) ++ constantAfter) =
          .ok (place (.bigInt "9223372036854775808")) := by
  have houtside : Json.Lexical.code.after constantBefore.toList = .code := by decide +kernel
  have hne : constantUnit (.bool true) ≠ constantUnit (.bool false) := by simp [constantUnit]
  have hkeeps : Schema.KeepsValue false (2 ^ 63) := Schema.keepsValue_false.2 (by decide)
  have hdigits : Literal.ofInt (Json.integerValue false (2 ^ 63)) = .bigInt "9223372036854775808" := by
    decide +kernel
  refine ⟨houtside, load_trueConstant, load_falseConstant, hne, hkeeps, ?_⟩
  obtain ⟨place, hvaries, htrue, hfalse, hinteger⟩ :=
    integer_literal_exact_iff houtside load_trueConstant load_falseConstant hne
  refine ⟨place, hvaries, htrue, hfalse, ?_⟩
  rw [← hdigits]
  exact (hinteger false (2 ^ 63)).1.2 hkeeps

/-- The first integer beyond the words is lowered to a double. -/
theorem wideConstant_becomes_float :
    ((lowerText (constantBefore ++ "18446744073709551616" ++ constantAfter)).toOption.map fun op =>
      (op.regionItems 0).map fun item => (item.head.opcode, item.head.resultText)) =
      some [("py.constant", "!_.float"), ("py.expr", "()")] := by
  decide +kernel

end RegionIR
