import Mathlib
import RegionIR.Ir.Basic
/-!
# The ids of values

An id is a plain name, a numbered version of a name, or a number. For names without a dot that do not
start with a digit the three kinds are told apart by their text.
-/
namespace RegionIR

/-- The name contains no dot and does not start with an ASCII digit. -/
def PlainName (x : String) : Prop := '.' ∉ x.toList ∧ ∀ c ∈ x.toList.head?, c.isDigit = false

instance (x : String) : Decidable (PlainName x) := inferInstanceAs (Decidable (_ ∧ _))

namespace ValueId

/-- The number in an id of the form `%N` or `%name.N`. -/
def counter? (v : ValueId) : Option Nat :=
  let digits := v.text.toList.rtakeWhile Char.isDigit
  let stem := v.text.toList.rdropWhile Char.isDigit
  if digits ≠ [] ∧ (stem = ['%'] ∨ stem.getLast? = some '.') then some (Nat.ofDigitChars 10 digits 0)
  else none

private theorem split_digits (stem : List Char) (c : Char) (n : Nat) (hc : c.isDigit = false) :
    (stem ++ c :: (toString n).toList).rtakeWhile Char.isDigit = (toString n).toList ∧
      (stem ++ c :: (toString n).toList).rdropWhile Char.isDigit = stem ++ [c] := by
  have hdigits : ∀ d ∈ (toString n).toList.reverse, d.isDigit = true := by
    intro d hd
    rw [List.mem_reverse, Nat.toString_eq_ofList_toDigits, String.toList_ofList] at hd
    exact Nat.isDigit_of_mem_toDigits (by norm_num) (by norm_num) hd
  constructor
  · rw [List.rtakeWhile, List.reverse_append, List.reverse_cons, List.append_assoc,
      List.takeWhile_append_of_pos hdigits]
    simp [hc]
  · rw [List.rdropWhile, List.reverse_append, List.reverse_cons, List.append_assoc,
      List.dropWhile_append_of_pos hdigits]
    simp [hc]

private theorem toString_toList_ne_nil (n : Nat) : (toString n).toList ≠ [] := by
  rw [Nat.toString_eq_ofList_toDigits, String.toList_ofList]
  exact Nat.toDigits_ne_nil

private theorem ofDigitChars_toString (n : Nat) : Nat.ofDigitChars 10 (toString n).toList 0 = n := by
  rw [Nat.toString_eq_ofList_toDigits, String.toList_ofList]
  exact Nat.ofDigitChars_ten_toDigits

@[simp] theorem counter?_numbered (n : Nat) : (numbered n).counter? = some n := by
  have htext : (numbered n).text.toList = [] ++ '%' :: (toString n).toList := by
    simp [numbered, String.toList_append]
  obtain ⟨hdigits, hstem⟩ := split_digits [] '%' n (by decide)
  simp only [counter?, htext, hdigits, hstem]
  rw [if_pos ⟨toString_toList_ne_nil n, .inl rfl⟩, ofDigitChars_toString]

@[simp] theorem counter?_versioned (x : String) (n : Nat) : (versioned x n).counter? = some n := by
  have htext : (versioned x n).text.toList = ('%' :: x.toList) ++ '.' :: (toString n).toList := by
    simp [versioned, String.toList_append]
  obtain ⟨hdigits, hstem⟩ := split_digits ('%' :: x.toList) '.' n (by decide)
  simp only [counter?, htext, hdigits, hstem]
  rw [if_pos ⟨toString_toList_ne_nil n, .inr (by rw [List.getLast?_append_cons]; rfl)⟩,
    ofDigitChars_toString]

theorem counter?_named {x : String} (hx : PlainName x) : (named x).counter? = none := by
  have htext : (named x).text.toList = '%' :: x.toList := by simp [named, String.toList_append]
  simp only [counter?, htext]
  rw [if_neg]
  rintro ⟨hdigits, hstem | hstem⟩
  · have hall : ('%' :: x.toList).rdropWhile Char.isDigit ++ ('%' :: x.toList).rtakeWhile Char.isDigit =
        '%' :: x.toList := List.rdropWhile_append_rtakeWhile
    rw [hstem, List.singleton_append, List.cons.injEq] at hall
    obtain ⟨c, rest, hcons⟩ := List.exists_cons_of_ne_nil hdigits
    have hhead : c ∈ x.toList.head? := by rw [← hall.2, hcons]; rfl
    have hdigit : c.isDigit = true := List.mem_rtakeWhile_imp (by rw [hcons]; simp)
    rw [hx.2 c hhead] at hdigit
    exact Bool.noConfusion hdigit
  · have hmem := List.mem_of_getLast? hstem
    have hdot := (List.rdropWhile_prefix Char.isDigit _).subset hmem
    exact hx.1 (by simpa using hdot)

theorem named_injective : Function.Injective named := by
  intro x y h
  have htext : "%" ++ x = "%" ++ y := congrArg text h
  exact String.append_right_inj _ |>.mp htext

theorem versioned_inj {x y : String} {m n : Nat} :
    versioned x m = versioned y n ↔ x = y ∧ m = n := by
  constructor
  · intro h
    have hn : m = n := by simpa using congrArg counter? h
    subst hn
    have htext : "%" ++ x ++ "." ++ toString m = "%" ++ y ++ "." ++ toString m := congrArg text h
    refine ⟨?_, rfl⟩
    rw [String.append_left_inj, String.append_left_inj, String.append_right_inj] at htext
    exact htext
  · rintro ⟨rfl, rfl⟩
    rfl

theorem named_ne_versioned {x : String} (hx : PlainName x) (y : String) (n : Nat) :
    named x ≠ versioned y n := by
  intro h
  have hcounter := congrArg counter? h
  simp [counter?_named hx] at hcounter

end ValueId

end RegionIR
