import RegionIR.Proofs.Lines
import RegionIR.Tree.Written
/-!
# Quoted texts can be read off

Attributes put texts between double quotes, and literals put them between single quotes. Either way a reader
that knows the quote and the escapes takes the text off the front of whatever it stands in, so the text and
what follows it are both determined.
-/
namespace RegionIR

/-- Reads up to the first quote that no backslash stands before. What comes back is the text and the rest. -/
def readQuoted (quote : Char) (unescape : Char → Char) : List Char → Option (List Char × List Char)
  | '\\' :: c :: rest => (readQuoted quote unescape rest).map fun p => (unescape c :: p.1, p.2)
  | c :: rest =>
    if c = quote then some ([], rest) else (readQuoted quote unescape rest).map fun p => (c :: p.1, p.2)
  | [] => none

/-- The character that an escaped one stands for in an attribute text. -/
private def Attr.unescaped (c : Char) : Char := if c = 'n' then '\n' else if c = 't' then '\t' else c

section Reading

variable {quote : Char} {unescape : Char → Char} {escape : Char → List Char}

private theorem readQuoted_plain {c : Char} (slash : c ≠ '\\') (other : c ≠ quote) (rest : List Char) :
    readQuoted quote unescape (c :: rest) =
      (readQuoted quote unescape rest).map fun p => (c :: p.1, p.2) := by
  rw [readQuoted]
  · rw [if_neg other]
  · intro _ _ heq
    exact absurd heq slash

private theorem readQuoted_quote (slash : quote ≠ '\\') (rest : List Char) :
    readQuoted quote unescape (quote :: rest) = some ([], rest) := by
  rw [readQuoted]
  · rw [if_pos rfl]
  · intro _ _ heq
    exact absurd heq slash

private theorem readQuoted_flatMap (slash : quote ≠ '\\')
    (escape_read : ∀ c rest, readQuoted quote unescape (escape c ++ rest) =
      (readQuoted quote unescape rest).map fun p => (c :: p.1, p.2)) (l rest : List Char) :
    readQuoted quote unescape (l.flatMap escape ++ quote :: rest) = some (l, rest) := by
  induction l with
  | nil => exact readQuoted_quote slash rest
  | cons c l ih => rw [List.flatMap_cons, List.append_assoc, escape_read, ih, Option.map_some]

end Reading

private theorem Attr.readQuoted_escapedChar (c : Char) (rest : List Char) :
    readQuoted '"' unescaped (escapedChar c ++ rest) =
      (readQuoted '"' unescaped rest).map fun p => (c :: p.1, p.2) := by
  unfold escapedChar
  split_ifs with hquote hslash hnewline htab
  · rw [hquote]
    rfl
  · rw [hslash]
    rfl
  · rw [hnewline]
    rfl
  · rw [htab]
    rfl
  · exact readQuoted_plain hslash hquote rest

private theorem readQuoted_singleQuotedChar (c : Char) (rest : List Char) :
    readQuoted '\'' id (singleQuotedChar c ++ rest) =
      (readQuoted '\'' id rest).map fun p => (c :: p.1, p.2) := by
  unfold singleQuotedChar
  split_ifs with hslash hquote
  · rw [hslash]
    rfl
  · rw [hquote]
    rfl
  · exact readQuoted_plain hslash hquote rest

private theorem Attr.readQuoted_render (s r : String) :
    ∃ l, ((text s).render ++ r).toList = '"' :: l ∧
      readQuoted '"' unescaped l = some (s.toList, r.toList) := by
  refine ⟨s.toList.flatMap escapedChar ++ '"' :: r.toList, ?_, ?_⟩
  · simp [render, quote]
  · exact readQuoted_flatMap (by decide) readQuoted_escapedChar _ _

private theorem Literal.readQuoted_written (s r : String) :
    ∃ l, ((text s).written ++ r).toList = '\'' :: l ∧ readQuoted '\'' id l = some (s.toList, r.toList) := by
  refine ⟨s.toList.flatMap singleQuotedChar ++ '\'' :: r.toList, ?_, ?_⟩
  · simp [written, singleQuoted]
  · exact readQuoted_flatMap (by decide) readQuoted_singleQuotedChar _ _

/-- A quoting that a reader takes off the front is determined by any text that starts with it. -/
theorem append_eq_iff_of_readQuoted {quoted : String → String} {quote : Char} {unescape : Char → Char}
    (reads : ∀ s r : String, ∃ l, (quoted s ++ r).toList = quote :: l ∧
      readQuoted quote unescape l = some (s.toList, r.toList)) (s t r₁ r₂ : String) :
    quoted s ++ r₁ = quoted t ++ r₂ ↔ s = t ∧ r₁ = r₂ := by
  constructor
  · intro heq
    obtain ⟨l, hl, hread⟩ := reads s r₁
    obtain ⟨k, hk, hread'⟩ := reads t r₂
    obtain rfl : l = k := by
      rw [heq, hk] at hl
      exact (List.cons.inj hl).2.symm
    rw [hread, Option.some.injEq, Prod.mk.injEq] at hread'
    exact ⟨String.toList_injective hread'.1, String.toList_injective hread'.2⟩
  · rintro ⟨rfl, rfl⟩
    rfl

private theorem Attr.tab_not_mem_escapedChar (c : Char) : '\t' ∉ escapedChar c := by
  unfold escapedChar
  split_ifs with _ _ _ htab
  all_goals simp_all [eq_comm]

def replaced (c : Char) (text l : List Char) : List Char := l.flatMap fun d => if d = c then text else [d]

/-- Between single quotes the characters are what two passes leave, the one for backslashes first. -/
theorem flatMap_singleQuotedChar (l : List Char) :
    l.flatMap singleQuotedChar = replaced '\'' ['\\', '\''] (replaced '\\' ['\\', '\\'] l) := by
  rw [replaced, replaced, List.flatMap_assoc]
  refine List.flatMap_congr fun c _ => ?_
  unfold singleQuotedChar
  split_ifs with hslash hquote
  · rfl
  · rw [hquote]
    rfl
  · rw [List.flatMap_singleton, if_neg hquote]

/-- Either quoting determines the text and all that follows it, wherever it stands. An attribute text holds no
break and no tab, and the two passes of the other quoting lose nothing. -/
theorem quotings_decodable :
    (∀ s t r₁ r₂ : String, (Attr.text s).render ++ r₁ = (Attr.text t).render ++ r₂ ↔ s = t ∧ r₁ = r₂) ∧
      (∀ s : String, '\n' ∉ (Attr.text s).render.toList ∧ '\t' ∉ (Attr.text s).render.toList) ∧
      (∀ s t r₁ r₂ : String,
        (Literal.text s).written ++ r₁ = (Literal.text t).written ++ r₂ ↔ s = t ∧ r₁ = r₂) ∧
      ∀ s : String, (Literal.text s).written.toList =
        '\'' :: replaced '\'' ['\\', '\''] (replaced '\\' ['\\', '\\'] s.toList) ++ ['\''] := by
  refine ⟨append_eq_iff_of_readQuoted Attr.readQuoted_render, fun s => ?_,
    append_eq_iff_of_readQuoted Literal.readQuoted_written, fun s => ?_⟩
  · refine ⟨Attr.newline_not_mem_chars (.text s) (by simp [Unbroken, Attr.words]), ?_⟩
    have htab : '\t' ∉ s.toList.flatMap Attr.escapedChar := by
      intro h
      obtain ⟨c, _, hc⟩ := List.mem_flatMap.mp h
      exact Attr.tab_not_mem_escapedChar c hc
    simp [Attr.render, Attr.quote, htab]
  · rw [← flatMap_singleQuotedChar]
    simp [Literal.written, singleQuoted]

-- the passes the other way round give a quote and a backslash with a quote the same text
example : replaced '\\' ['\\', '\\'] (replaced '\'' ['\\', '\''] ['\'']) ++ ['\''] =
    replaced '\\' ['\\', '\\'] (replaced '\'' ['\\', '\''] ['\\']) ++ ['\'', '\''] := by decide

end RegionIR
