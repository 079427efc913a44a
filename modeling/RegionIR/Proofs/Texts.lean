import RegionIR.Proofs.Tokens
/-!
# Texts that hold values

A grammar of JSON texts: `Holds` says that a text starts with a value, and what is left after it. The
readers of arrays, objects and values are shown to read exactly what the grammar derives. In a text so
derived a scalar can be exchanged for another one, and everything around it is read as before.
-/
namespace RegionIR.Json

open Schema (outcome outcome_bind outcome_pure outcome_map outcome_advance outcome_failHere
  outcome_failAhead outcome_peekToken outcome_stepBound)

def trim (cs : List Char) : List Char := cs.dropWhile Cursor.isSpace

@[simp] theorem rest_skipSpace (c : Cursor) : c.skipSpace.rest = trim c.rest := rfl

@[simp] theorem trim_trim (cs : List Char) : trim (trim cs) = trim cs :=
  List.dropWhile_idempotent _ cs

private theorem length_trim_le (cs : List Char) : (trim cs).length ≤ cs.length :=
  (List.dropWhile_sublist _).length_le

private theorem Cursor.Roomy.skipSpace {c : Cursor} (h : c.Roomy) : c.skipSpace.Roomy :=
  (h.advance (List.takeWhile_append_dropWhile (p := Cursor.isSpace)).symm).elim fun hrest hroomy => by
    rw [Cursor.Roomy, hrest] at hroomy
    exact hroomy

inductive Scalar : List Char → Value → List Char → Prop
  | token {first : Char} {t r : List Char} {v : Value} (head : t.head? = some first)
      (solid : Cursor.isSpace first = false) (plain : first ≠ '[' ∧ first ≠ '\x7b' ∧ first ≠ ']')
      (token : Token t) (reads : Reads (Reader.scalar first) t v r.head?) : Scalar (t ++ r) v r

/-- What comes before an element: nothing before the first, a comma before each other. -/
inductive Lead : Bool → List Char → List Char → Prop
  | first (cs : List Char) : Lead true cs cs
  | comma {cs r : List Char} (comma : trim cs = ',' :: r) : Lead false cs r

inductive Key : List Char → String → List Char → Prop
  | mk {cs t mid r : List Char} {key : String} (quote : trim cs = '"' :: t ++ mid)
      (closes : Lexical.text.Closes t) (reads : ∀ next, Reads Reader.string ('"' :: t) key next)
      (colon : trim mid = ':' :: r) : Key cs key r

inductive Items (E : List Char → Value → List Char → Prop) : Bool → List Char → List Value →
    List Char → Prop
  | stop {first : Bool} {cs r : List Char} (bracket : trim cs = ']' :: r) : Items E first cs [] r
  | cons {first : Bool} {cs cs' mid r : List Char} {v : Value} {vs : List Value}
      (lead : Lead first cs cs') (element : E cs' v mid) (rest : Items E false mid vs r) :
      Items E first cs (v :: vs) r

inductive Members (E : List Char → Value → List Char → Prop) : Bool → List Char →
    List (String × Value) → List Char → Prop
  | stop {first : Bool} {cs r : List Char} (brace : trim cs = '\x7d' :: r) : Members E first cs [] r
  | cons {first : Bool} {cs cs' mid mid' r : List Char} {key : String} {v : Value}
      {ms : List (String × Value)} (lead : Lead first cs cs') (name : Key cs' key mid)
      (element : E mid v mid') (rest : Members E false mid' ms r) :
      Members E first cs ((key, v) :: ms) r

inductive Compound (E : List Char → Value → List Char → Prop) : List Char → Value → List Char → Prop
  | array {cs r : List Char} {items : List Value} (elements : Items E true cs items r) :
      Compound E ('[' :: cs) (.array items) r
  | object {cs r : List Char} {ms : List (String × Value)} (members : Members E true cs ms r) :
      Compound E ('\x7b' :: cs) (.object ms) r

/-- The text starts with a value of at most the given depth, and what is left after it. -/
def Holds : Nat → List Char → Value → List Char → Prop
  | 0, cs, v, r => Scalar (trim cs) v r
  | depth + 1, cs, v, r => Scalar (trim cs) v r ∨ Compound (Holds depth) (trim cs) v r

/-- A reader of elements and the texts that it reads. -/
structure Element (element : Reader Value) (E : List Char → Value → List Char → Prop) : Prop where
  sound : ∀ {c c' : Cursor} {v : Value}, c.Roomy → outcome element c = some (v, c') →
    E c.rest v c'.rest ∧ c'.Roomy
  complete : ∀ {c : Cursor} {v : Value} {r : List Char}, c.Roomy → E c.rest v r →
    ∃ c', outcome element c = some (v, c') ∧ c'.rest = r ∧ c'.Roomy
  trimmed : ∀ {cs r : List Char} {v : Value}, E (trim cs) v r ↔ E cs v r
  starts : ∀ {cs r : List Char} {v : Value}, E cs v r → ∃ ch, (trim cs).head? = some ch ∧ ch ≠ ']'
  shrinks : ∀ {cs r : List Char} {v : Value}, E cs v r → r.length < cs.length

section Separators

variable {c c₁ : Cursor} {first : Bool}

private theorem Cursor.Roomy.advance_token {ch : Char} {r : List Char} (h : c.Roomy)
    (htoken : trim c.rest = ch :: r) :
    (c.skipSpace.advance 1).rest = r ∧ (c.skipSpace.advance 1).Roomy :=
  h.skipSpace.advance (t := [ch]) htoken

private theorem length_lt_of_trim {cs r : List Char} {ch : Char} (h : trim cs = ch :: r) :
    r.length < cs.length := by
  have := length_trim_le cs
  rw [h, List.length_cons] at this
  omega

private theorem nextElement_sound {more : Bool} (hroomy : c.Roomy)
    (h : outcome (Reader.nextElement first) c = some (more, c₁)) :
    c₁.Roomy ∧ (more = false → trim c.rest = ']' :: c₁.rest) ∧
      (more = true → ∃ r, Lead first c.rest r ∧ c₁.rest = trim r) := by
  rw [Reader.nextElement, outcome_bind, outcome_peekToken, Option.bind_some, rest_skipSpace] at h
  cases hhead : (trim c.rest).head? with
  | none => simp [hhead] at h
  | some ch =>
    obtain ⟨r, hr⟩ := List.head?_eq_some_iff.1 hhead
    obtain ⟨hrest, hroomy₁⟩ := hroomy.advance_token hr
    simp only [hhead] at h
    split at h
    · simp at h
    · rename_i heq
      cases h
      cases heq
      exact ⟨hroomy₁, fun _ => by rw [hr, hrest], by simp⟩
    · rename_i heq
      cases heq
      split at h
      · rename_i hfirst
        cases h
        cases hfirst
        exact ⟨hroomy.skipSpace, by simp, fun _ => ⟨c.rest, .first _, rfl⟩⟩
      · rename_i hfirst
        rw [Bool.not_eq_true] at hfirst
        subst hfirst
        split at h
        · rename_i hcomma
          subst hcomma
          rw [outcome_bind, outcome_advance, Option.bind_some, outcome_bind, outcome_peekToken,
            Option.bind_some] at h
          dsimp only at h
          split at h
          · simp at h
          · simp at h
          · cases h
            exact ⟨hroomy₁.skipSpace, by simp, fun _ => ⟨r, .comma hr, by rw [rest_skipSpace, hrest]⟩⟩
        · simp at h

private theorem nextElement_stop {r : List Char} (h : trim c.rest = ']' :: r) :
    outcome (Reader.nextElement first) c = some (false, c.skipSpace.advance 1) := by
  rw [Reader.nextElement, outcome_bind, outcome_peekToken, Option.bind_some, rest_skipSpace, h]
  rfl

private theorem nextElement_more {r : List Char} {ch : Char} (hroomy : c.Roomy) (h : Lead first c.rest r)
    (hhead : (trim r).head? = some ch) (hch : ch ≠ ']') :
    ∃ c₁, outcome (Reader.nextElement first) c = some (true, c₁) ∧ c₁.rest = trim r ∧ c₁.Roomy := by
  cases h with
  | first =>
    refine ⟨c.skipSpace, ?_, rfl, hroomy.skipSpace⟩
    rw [Reader.nextElement, outcome_bind, outcome_peekToken, Option.bind_some, rest_skipSpace, hhead]
    dsimp only
    split
    · rename_i heq
      cases heq
    · rename_i heq
      exact absurd (Option.some.inj heq) hch
    · rfl
  | comma hcomma =>
    obtain ⟨hrest, hroomy₁⟩ := hroomy.advance_token hcomma
    refine ⟨(c.skipSpace.advance 1).skipSpace, ?_, by rw [rest_skipSpace, hrest], hroomy₁.skipSpace⟩
    have hhead₁ : (trim (c.skipSpace.advance 1).rest).head? = some ch := by rw [hrest, hhead]
    rw [Reader.nextElement, outcome_bind, outcome_peekToken, Option.bind_some, rest_skipSpace, hcomma]
    change outcome (Reader.advance 1 >>= fun _ => Reader.peekToken >>= _) c.skipSpace = _
    rw [outcome_bind, outcome_advance, Option.bind_some, outcome_bind, outcome_peekToken, Option.bind_some,
      rest_skipSpace, hhead₁]
    dsimp only
    split
    · rename_i heq
      cases heq
    · rename_i heq
      exact absurd (Option.some.inj heq) hch
    · rfl

private theorem key_sound {key? : Option String} (hroomy : c.Roomy) (hquote : c.rest.head? = some '"')
    (h : outcome (do return some (← Reader.string)) c = some (key?, c₁)) :
    c₁.Roomy ∧ ∃ key t, key? = some key ∧ c.rest = '"' :: t ++ c₁.rest ∧ Lexical.text.Closes t ∧
      ∀ next, Reads Reader.string ('"' :: t) key next := by
  obtain ⟨key, rfl, hstring⟩ := Schema.outcome_bind_pure_eq_some h
  obtain ⟨t, hrest, hcloses, hreads⟩ := Reader.string_reads hquote hstring
  obtain ⟨c₂, hrun₂, _, hroomy₂⟩ := hreads _ c _ hrest rfl hroomy
  cases hstring.symm.trans hrun₂
  exact ⟨hroomy₂, key, t, rfl, hrest, hcloses, hreads⟩

private theorem nextKey_sound {key? : Option String} (hroomy : c.Roomy)
    (h : outcome (Reader.nextKey first) c = some (key?, c₁)) :
    c₁.Roomy ∧ (key? = none → trim c.rest = '\x7d' :: c₁.rest) ∧
      ∀ key, key? = some key → ∃ r t, Lead first c.rest r ∧ trim r = '"' :: t ++ c₁.rest ∧
        Lexical.text.Closes t ∧ ∀ next, Reads Reader.string ('"' :: t) key next := by
  rw [Reader.nextKey, outcome_bind, outcome_peekToken, Option.bind_some, rest_skipSpace] at h
  cases hhead : (trim c.rest).head? with
  | none => simp [hhead] at h
  | some ch =>
    obtain ⟨r, hr⟩ := List.head?_eq_some_iff.1 hhead
    obtain ⟨hrest, hroomy₁⟩ := hroomy.advance_token hr
    simp only [hhead] at h
    split at h
    · simp at h
    · rename_i heq
      cases h
      cases heq
      exact ⟨hroomy₁, fun _ => by rw [hr, hrest], by simp⟩
    · rename_i heq
      cases heq
      split at h
      · rename_i hfirst
        cases hfirst
        split at h
        · rename_i hquote
          subst hquote
          obtain ⟨hroomy₂, key, t, rfl, ht, hcloses, hreads⟩ := key_sound hroomy.skipSpace hhead h
          refine ⟨hroomy₂, by simp, fun key' hkey => ?_⟩
          cases hkey
          exact ⟨c.rest, t, .first _, ht, hcloses, hreads⟩
        · simp at h
      · rename_i hfirst
        rw [Bool.not_eq_true] at hfirst
        subst hfirst
        split at h
        · rename_i hcomma
          subst hcomma
          rw [outcome_bind, outcome_advance, Option.bind_some, outcome_bind, outcome_peekToken,
            Option.bind_some] at h
          dsimp only at h
          split at h
          · simp at h
          · rename_i hquote
            obtain ⟨hroomy₂, key, t, rfl, ht, hcloses, hreads⟩ := key_sound hroomy₁.skipSpace hquote h
            refine ⟨hroomy₂, by simp, fun key' hkey => ?_⟩
            cases hkey
            exact ⟨r, t, .comma hr, by rw [← hrest]; exact ht, hcloses, hreads⟩
          · simp at h
          · simp at h
        · simp at h

private theorem nextKey_stop {r : List Char} (h : trim c.rest = '\x7d' :: r) :
    outcome (Reader.nextKey first) c = some (none, c.skipSpace.advance 1) := by
  rw [Reader.nextKey, outcome_bind, outcome_peekToken, Option.bind_some, rest_skipSpace, h]
  rfl

private theorem nextKey_more {r t mid : List Char} {key : String} (hroomy : c.Roomy)
    (h : Lead first c.rest r)
    (hquote : trim r = '"' :: t ++ mid) (hreads : ∀ next, Reads Reader.string ('"' :: t) key next) :
    ∃ c₁, outcome (Reader.nextKey first) c = some (some key, c₁) ∧ c₁.rest = mid ∧ c₁.Roomy := by
  cases h with
  | first =>
    obtain ⟨c₁, hrun, hleft⟩ := hreads _ c.skipSpace mid hquote rfl hroomy.skipSpace
    refine ⟨c₁, ?_, hleft⟩
    rw [Reader.nextKey, outcome_bind, outcome_peekToken, Option.bind_some, rest_skipSpace, hquote]
    simp [hrun]
  | comma hcomma =>
    obtain ⟨hrest, hroomy₁⟩ := hroomy.advance_token hcomma
    have hquote₁ : trim (c.skipSpace.advance 1).rest = '"' :: t ++ mid := by rw [hrest, hquote]
    obtain ⟨c₁, hrun, hleft⟩ := hreads _ (c.skipSpace.advance 1).skipSpace mid hquote₁ rfl hroomy₁.skipSpace
    refine ⟨c₁, ?_, hleft⟩
    rw [Reader.nextKey, outcome_bind, outcome_peekToken, Option.bind_some, rest_skipSpace, hcomma]
    simp [hquote₁, hrun]

private theorem colon_sound (hroomy : c.Roomy) (h : outcome Reader.colon c = some ((), c₁)) :
    trim c.rest = ':' :: c₁.rest ∧ c₁.Roomy := by
  rw [Reader.colon, outcome_bind, outcome_peekToken, Option.bind_some, rest_skipSpace] at h
  dsimp only at h
  split at h
  · simp at h
  · rename_i hhead
    obtain ⟨r, hr⟩ := List.head?_eq_some_iff.1 hhead
    obtain ⟨hrest, hroomy₁⟩ := hroomy.advance_token hr
    cases h
    exact ⟨by rw [hr, hrest], hroomy₁⟩
  · simp at h

private theorem colon_complete {r : List Char} (h : trim c.rest = ':' :: r) :
    outcome Reader.colon c = some ((), c.skipSpace.advance 1) := by
  rw [Reader.colon, outcome_bind, outcome_peekToken, Option.bind_some, rest_skipSpace, h]
  rfl

end Separators

private theorem Lead.length_le {first : Bool} {cs r : List Char} (h : Lead first cs r) :
    r.length ≤ cs.length := by
  cases h with
  | first => exact le_rfl
  | comma hcomma => exact (length_lt_of_trim hcomma).le

section Elements

variable {element : Reader Value} {E : List Char → Value → List Char → Prop} (hE : Element element E)
  {first : Bool} {steps : Nat} {cs r : List Char} {vs : List Value} {ms : List (String × Value)}
  {c c' : Cursor}

include hE

private theorem items_sound (hroomy : c.Roomy)
    (h : outcome (Reader.items element steps first) c = some (vs, c')) :
    Items E first c.rest vs c'.rest ∧ c'.Roomy := by
  induction steps generalizing first c vs with
  | zero => simp [Reader.items] at h
  | succ steps ih =>
    rw [Reader.items, outcome_bind, Option.bind_eq_some_iff] at h
    obtain ⟨⟨more, c₁⟩, hnext, h⟩ := h
    obtain ⟨hroomy₁, hstop, hmore⟩ := nextElement_sound hroomy hnext
    cases more with
    | false =>
      cases h
      exact ⟨.stop (hstop rfl), hroomy₁⟩
    | true =>
      obtain ⟨r, hlead, hr⟩ := hmore rfl
      simp only [if_true, outcome_bind, Option.bind_eq_some_iff, Prod.exists] at h
      obtain ⟨v, c₂, hv, vs, c₃, hvs, hpure⟩ := h
      cases hpure
      obtain ⟨hholds, hroomy₂⟩ := hE.sound hroomy₁ hv
      rw [hr, hE.trimmed] at hholds
      obtain ⟨hitems, hroomy₃⟩ := ih hroomy₂ hvs
      exact ⟨.cons hlead hholds hitems, hroomy₃⟩

private theorem items_complete (h : Items E first cs vs r) (hsteps : vs.length < steps)
    (hroomy : c.Roomy) (hrest : c.rest = cs) :
    ∃ c', outcome (Reader.items element steps first) c = some (vs, c') ∧ c'.rest = r ∧ c'.Roomy := by
  induction h generalizing steps c with
  | stop bracket =>
    subst hrest
    obtain ⟨steps, rfl⟩ := Nat.exists_eq_add_one_of_ne_zero (by omega : steps ≠ 0)
    refine ⟨c.skipSpace.advance 1, ?_, hroomy.advance_token bracket⟩
    rw [Reader.items, outcome_bind, nextElement_stop bracket]
    rfl
  | @cons first cs cs' mid r v vs lead element rest ih =>
    subst hrest
    rw [List.length_cons] at hsteps
    obtain ⟨steps, rfl⟩ := Nat.exists_eq_add_one_of_ne_zero (by omega : steps ≠ 0)
    obtain ⟨ch, hhead, hch⟩ := hE.starts element
    obtain ⟨c₁, hnext, hrest₁, hroomy₁⟩ := nextElement_more hroomy lead hhead hch
    obtain ⟨c₂, hv, hrest₂, hroomy₂⟩ := hE.complete hroomy₁ (by rwa [hrest₁, hE.trimmed])
    obtain ⟨c₃, hvs, hleft⟩ := ih (by omega : vs.length < steps) hroomy₂ hrest₂
    refine ⟨c₃, ?_, hleft⟩
    rw [Reader.items, outcome_bind, hnext, Option.bind_some]
    simp [hv, hvs]

private theorem items_length (h : Items E first cs vs r) : r.length + vs.length < cs.length := by
  induction h with
  | stop bracket => exact length_lt_of_trim bracket
  | cons lead element rest ih =>
    have hlead := lead.length_le
    have helement := hE.shrinks element
    rw [List.length_cons]
    omega

private theorem members_sound (hroomy : c.Roomy)
    (h : outcome (Reader.members element steps first) c = some (ms, c')) :
    Members E first c.rest ms c'.rest ∧ c'.Roomy := by
  induction steps generalizing first c ms with
  | zero => simp [Reader.members] at h
  | succ steps ih =>
    rw [Reader.members, outcome_bind, Option.bind_eq_some_iff] at h
    obtain ⟨⟨key?, c₁⟩, hnext, h⟩ := h
    obtain ⟨hroomy₁, hstop, hmore⟩ := nextKey_sound hroomy hnext
    cases key? with
    | none =>
      cases h
      exact ⟨.stop (hstop rfl), hroomy₁⟩
    | some key =>
      obtain ⟨r, t, hlead, hquote, hcloses, hreads⟩ := hmore key rfl
      simp only [outcome_bind, Option.bind_eq_some_iff, Prod.exists] at h
      obtain ⟨_, c₂, hcolon, v, c₃, hv, ms, c₄, hms, hpure⟩ := h
      cases hpure
      obtain ⟨hmid, hroomy₂⟩ := colon_sound hroomy₁ hcolon
      obtain ⟨hholds, hroomy₃⟩ := hE.sound hroomy₂ hv
      obtain ⟨hmembers, hroomy₄⟩ := ih hroomy₃ hms
      exact ⟨.cons hlead (.mk hquote hcloses hreads hmid) hholds hmembers, hroomy₄⟩

private theorem members_complete (h : Members E first cs ms r) (hsteps : ms.length < steps)
    (hroomy : c.Roomy) (hrest : c.rest = cs) :
    ∃ c', outcome (Reader.members element steps first) c = some (ms, c') ∧ c'.rest = r ∧ c'.Roomy := by
  induction h generalizing steps c with
  | stop brace =>
    subst hrest
    obtain ⟨steps, rfl⟩ := Nat.exists_eq_add_one_of_ne_zero (by omega : steps ≠ 0)
    refine ⟨c.skipSpace.advance 1, ?_, hroomy.advance_token brace⟩
    rw [Reader.members, outcome_bind, nextKey_stop brace]
    rfl
  | @cons first cs cs' mid mid' r key v ms lead name element rest ih =>
    subst hrest
    rw [List.length_cons] at hsteps
    obtain ⟨steps, rfl⟩ := Nat.exists_eq_add_one_of_ne_zero (by omega : steps ≠ 0)
    obtain ⟨quote, _, reads, colon⟩ := name
    obtain ⟨c₁, hnext, hrest₁, hroomy₁⟩ := nextKey_more hroomy lead quote reads
    rw [← hrest₁] at colon
    obtain ⟨hrest₂, hroomy₂⟩ := hroomy₁.advance_token colon
    obtain ⟨c₃, hv, hrest₃, hroomy₃⟩ := hE.complete hroomy₂ (by rwa [hrest₂])
    obtain ⟨c₄, hms, hleft⟩ := ih (by omega : ms.length < steps) hroomy₃ hrest₃
    refine ⟨c₄, ?_, hleft⟩
    rw [Reader.members, outcome_bind, hnext, Option.bind_some]
    simp [colon_complete colon, hv, hms]

private theorem members_length (h : Members E first cs ms r) : r.length + ms.length < cs.length := by
  induction h with
  | stop brace => exact length_lt_of_trim brace
  | cons lead name element rest ih =>
    obtain ⟨quote, _, _, colon⟩ := name
    have hlead := lead.length_le
    have hquote := length_lt_of_trim quote
    have hcolon := length_lt_of_trim colon
    have helement := hE.shrinks element
    rw [List.append_eq, List.length_append] at hquote
    rw [List.length_cons]
    omega

end Elements

private theorem solid_of_scalar {first : Char} {c c' : Cursor} {v : Value}
    (h : outcome (Reader.scalar first) c = some (v, c')) :
    Cursor.isSpace first = false ∧ first ≠ '[' ∧ first ≠ '\x7b' ∧ first ≠ ']' := by
  have hfirst : first = '"' ∨ first = '-' ∨ first.isDigit = true ∨ first = 'n' ∨ first = 't' ∨ first = 'f' := by
    by_contra hnot
    simp only [not_or] at hnot
    obtain ⟨hquote, hminus, hdigit, hn, ht, hf⟩ := hnot
    simp [Reader.scalar, hquote, hminus, hdigit, hn, ht, hf] at h
  rcases hfirst with rfl | rfl | hdigit | rfl | rfl | rfl
  · decide
  · decide
  · have hne : ∀ x : Char, x.isDigit = false → first ≠ x := by
      rintro x hx rfl
      rw [hx] at hdigit
      cases hdigit
    refine ⟨?_, hne _ (by decide), hne _ (by decide), hne _ (by decide)⟩
    simp [Cursor.isSpace, hne ' ' (by decide), hne '\n' (by decide), hne '\t' (by decide),
      hne '\r' (by decide)]
  · decide
  · decide
  · decide

section Values

variable {depth : Nat} {c c' : Cursor} {v : Value} {first : Char} {cs r : List Char}

theorem scalar_sound (hroomy : c.Roomy) (hhead : c.rest.head? = some first)
    (h : outcome (Reader.scalar first) c = some (v, c')) : Scalar c.rest v c'.rest ∧ c'.Roomy := by
  obtain ⟨t, hrest, hne, htoken, hreads⟩ := Reader.scalar_reads hhead h
  obtain ⟨c₁, hrun, _, hroomy₁⟩ := hreads c c'.rest hrest rfl hroomy
  cases h.symm.trans hrun
  obtain ⟨hsolid, hplain⟩ := solid_of_scalar h
  have hfirst : t.head? = some first := by
    obtain ⟨x, t, rfl⟩ := List.exists_cons_of_ne_nil hne
    rw [← hhead, hrest]
    rfl
  exact ⟨hrest ▸ .token hfirst hsolid hplain htoken hreads, hroomy₁⟩

private theorem value_eq_scalar (hhead : (trim c.rest).head? = some first) (hopen : first ≠ '[')
    (hbrace : first ≠ '\x7b') :
    outcome (Reader.value depth) c = outcome (Reader.scalar first) c.skipSpace := by
  cases depth with
  | zero =>
    rw [Reader.value, outcome_bind, outcome_peekToken, Option.bind_some, rest_skipSpace, hhead]
    simp [hopen, hbrace]
  | succ depth =>
    rw [Reader.value, outcome_bind, outcome_peekToken, Option.bind_some, rest_skipSpace, hhead]
    simp [hopen, hbrace]

private theorem scalar_complete (hroomy : c.Roomy) (h : Scalar (trim c.rest) v r) :
    ∃ c', outcome (Reader.value depth) c = some (v, c') ∧ c'.rest = r ∧ c'.Roomy := by
  generalize hcs : trim c.rest = cs at h
  obtain ⟨hfirst, _, ⟨hopen, hbrace, _⟩, _, hreads⟩ := h
  obtain ⟨c₁, hrun, hleft⟩ := hreads c.skipSpace _ hcs rfl hroomy.skipSpace
  refine ⟨c₁, ?_, hleft⟩
  rw [value_eq_scalar (by rw [hcs, List.head?_append, hfirst]; rfl) hopen hbrace, hrun]

private theorem scalar_starts (h : Scalar cs v r) : ∃ ch, cs.head? = some ch ∧ ch ≠ ']' := by
  obtain ⟨hfirst, _, ⟨_, _, hclose⟩, _, _⟩ := h
  exact ⟨_, by rw [List.head?_append, hfirst]; rfl, hclose⟩

private theorem scalar_shrinks (h : Scalar cs v r) : r.length < cs.length := by
  cases h with
  | @token first t r v head =>
    obtain ⟨t, rfl⟩ := List.head?_eq_some_iff.1 head
    rw [List.length_append, List.length_cons]
    omega

private theorem compound_starts {E : List Char → Value → List Char → Prop} (h : Compound E cs v r) :
    ∃ ch, cs.head? = some ch ∧ ch ≠ ']' := by
  cases h with
  | array => exact ⟨'[', rfl, by decide⟩
  | object => exact ⟨'\x7b', rfl, by decide⟩

private theorem compound_sound (hE : Element (Reader.value depth) (Holds depth)) (hroomy : c.Roomy)
    (h : outcome (Reader.value (depth + 1)) c = some (v, c')) : Holds (depth + 1) c.rest v c'.rest ∧ c'.Roomy := by
  rcases Schema.value_cases h with ⟨hhead, items, rfl, hitems⟩ | ⟨hhead, ms, rfl, hms⟩ |
    ⟨first, hhead, _, _, hscalar⟩
  · obtain ⟨r, hr⟩ := List.head?_eq_some_iff.1 hhead
    obtain ⟨hrest, hroomy₁⟩ := hroomy.advance_token hr
    obtain ⟨helements, hroomy₂⟩ := items_sound hE hroomy₁ hitems
    rw [hrest] at helements
    exact ⟨.inr (by rw [← rest_skipSpace, hr]; exact .array helements), hroomy₂⟩
  · obtain ⟨r, hr⟩ := List.head?_eq_some_iff.1 hhead
    obtain ⟨hrest, hroomy₁⟩ := hroomy.advance_token hr
    obtain ⟨hmembers, hroomy₂⟩ := members_sound hE hroomy₁ hms
    rw [hrest] at hmembers
    exact ⟨.inr (by rw [← rest_skipSpace, hr]; exact .object hmembers), hroomy₂⟩
  · obtain ⟨hholds, hroomy₁⟩ := scalar_sound hroomy.skipSpace hhead hscalar
    exact ⟨.inl hholds, hroomy₁⟩

private theorem compound_complete (hE : Element (Reader.value depth) (Holds depth)) (hroomy : c.Roomy)
    (h : Compound (Holds depth) (trim c.rest) v r) :
    ∃ c', outcome (Reader.value (depth + 1)) c = some (v, c') ∧ c'.rest = r ∧ c'.Roomy := by
  have hlength := hroomy.length_le
  have htrim := length_trim_le c.rest
  generalize hcs : trim c.rest = cs at h htrim
  cases h with
  | array elements =>
    obtain ⟨hrest, hroomy₁⟩ := hroomy.advance_token hcs
    have hcount := items_length hE elements
    rw [List.length_cons] at htrim
    obtain ⟨c₁, hrun, hleft⟩ := items_complete hE elements (by omega : _ < c.size + 1) hroomy₁ hrest
    refine ⟨c₁, ?_, hleft⟩
    rw [Reader.value, outcome_bind, outcome_peekToken, Option.bind_some, rest_skipSpace, hcs]
    simp [hrun]
  | object members =>
    obtain ⟨hrest, hroomy₁⟩ := hroomy.advance_token hcs
    have hcount := members_length hE members
    rw [List.length_cons] at htrim
    obtain ⟨c₁, hrun, hleft⟩ := members_complete hE members (by omega : _ < c.size + 1) hroomy₁ hrest
    refine ⟨c₁, ?_, hleft⟩
    rw [Reader.value, outcome_bind, outcome_peekToken, Option.bind_some, rest_skipSpace, hcs]
    simp [hrun]

private theorem compound_shrinks (hE : Element (Reader.value depth) (Holds depth))
    (h : Compound (Holds depth) cs v r) : r.length < cs.length := by
  cases h with
  | array elements =>
    have := items_length hE elements
    rw [List.length_cons]
    omega
  | object members =>
    have := members_length hE members
    rw [List.length_cons]
    omega

end Values

/-- The readers of values read exactly what the grammar derives. -/
theorem element_value (depth : Nat) : Element (Reader.value depth) (Holds depth) := by
  induction depth with
  | zero =>
    refine ⟨fun {c c' v} hroomy h => ?_, fun hroomy h => scalar_complete hroomy h, ?_, fun h => scalar_starts h,
      fun h => lt_of_lt_of_le (scalar_shrinks h) (length_trim_le _)⟩
    · rw [Reader.value, outcome_bind, outcome_peekToken, Option.bind_some] at h
      dsimp only at h
      cases hhead : c.skipSpace.rest.head? with
      | none =>
        rw [hhead] at h
        simp at h
      | some first =>
        rw [hhead] at h
        dsimp only at h
        split at h
        · simp at h
        · exact scalar_sound hroomy.skipSpace hhead h
    · intro cs r v
      rw [Holds, Holds, trim_trim]
  | succ depth ih =>
    refine ⟨fun hroomy h => compound_sound ih hroomy h, fun hroomy h => ?_, ?_, fun h => ?_, fun h => ?_⟩
    · exact h.elim (scalar_complete hroomy) (compound_complete ih hroomy)
    · intro cs r v
      rw [Holds, Holds, trim_trim]
    · exact h.elim scalar_starts compound_starts
    · exact lt_of_lt_of_le (h.elim scalar_shrinks (compound_shrinks ih)) (length_trim_le _)

private theorem finish_eq_some_iff {c c' : Cursor} :
    outcome Reader.finish c = some ((), c') ↔ trim c.rest = [] ∧ c' = c.skipSpace := by
  rw [Reader.finish, outcome_bind, outcome_peekToken, Option.bind_some, rest_skipSpace]
  cases htrim : trim c.rest with
  | nil =>
    simp only [List.head?_nil, outcome_pure, true_and]
    exact ⟨fun h => (Prod.mk.inj (Option.some.inj h)).2.symm, fun h => by rw [h]⟩
  | cons x r => simp

/-- The texts that are parsed are those that hold a value and nothing else. -/
theorem parse_eq_ok_iff {text : String} {v : Value} :
    parse text = .ok v ↔ ∃ r, Holds depthLimit text.toList v r ∧ trim r = [] := by
  have hE := element_value depthLimit
  have hroomy := Cursor.roomy_ofText text
  rw [← Schema.toOption_eq_some_iff, Schema.parse_toOption]
  simp only [outcome_bind, Option.map_eq_some_iff, Option.bind_eq_some_iff, Prod.exists]
  constructor
  · rintro ⟨w, _, ⟨u, c₁, hvalue, _, c₂, hfinish, hpure⟩, rfl⟩
    cases hpure
    exact ⟨c₁.rest, (hE.sound hroomy hvalue).1, (finish_eq_some_iff.1 hfinish).1⟩
  · rintro ⟨r, hholds, htrim⟩
    obtain ⟨c₁, hvalue, rfl, _⟩ := hE.complete hroomy hholds
    exact ⟨v, _, ⟨v, c₁, hvalue, (), _, finish_eq_some_iff.2 ⟨htrim, rfl⟩, rfl⟩, rfl⟩

end RegionIR.Json

namespace RegionIR.Schema

open Json (Cursor Reader Value Holds Element trim)

private theorem tag_sound {depth : Nat} {c c' : Cursor} {variant : Variant SourceUnit} (hroomy : c.Roomy)
    (h : outcome RootReader.tag c = some (variant, c')) :
    ∃ v, Holds depth c.rest v c'.rest ∧ c'.Roomy := by
  rw [RootReader.tag, outcome_bind, outcome_lift, outcome_peekToken, Option.bind_some] at h
  dsimp only at h
  split at h
  · simp at h
  · simp at h
  · simp at h
  · rename_i first hopen hbrace hhead
    simp only [outcome_bind, outcome_lift, Option.bind_eq_some_iff, Prod.exists] at h
    obtain ⟨v, c₁, hscalar, hvariant⟩ := h
    have hvalue : outcome (Reader.value depth) c = some (v, c₁) := by
      rw [Json.value_eq_scalar hhead (fun heq => hopen heq) (fun heq => hbrace heq), hscalar]
    obtain ⟨hholds, hroomy₁⟩ := (Json.element_value depth).sound hroomy hvalue
    cases hnamed : namedVariantOf unitVariants v with
    | error m =>
      rw [hnamed] at hvariant
      simp at hvariant
    | ok w =>
      rw [hnamed] at hvariant
      cases hvariant
      exact ⟨v, hholds, hroomy₁⟩

private theorem rootMembers_sound {steps : Nat} {first : Bool} {seen : Option (Variant SourceUnit)}
    {c c' : Cursor} {x : Variant SourceUnit × List (String × Value)} (hroomy : c.Roomy)
    (h : outcome (RootReader.members steps first seen) c = some (x, c')) :
    ∃ ms, Json.Members (Holds RootReader.innerDepth) first c.rest ms c'.rest ∧ c'.Roomy := by
  have hE := Json.element_value RootReader.innerDepth
  induction steps generalizing first seen c x with
  | zero => simp [RootReader.members] at h
  | succ steps ih =>
    unfold RootReader.members at h
    rw [outcome_bind, outcome_lift, Option.bind_eq_some_iff] at h
    obtain ⟨⟨key?, c₁⟩, hnext, h⟩ := h
    obtain ⟨hroomy₁, hstop, hmore⟩ := Json.nextKey_sound hroomy hnext
    cases key? with
    | none =>
      cases seen with
      | none => simp at h
      | some v =>
        cases h
        exact ⟨[], .stop (hstop rfl), hroomy₁⟩
    | some key =>
      obtain ⟨r, t, hlead, hquote, hcloses, hreads⟩ := hmore key rfl
      have hcons : ∀ {c₂ c₃ : Cursor} {v ms}, outcome Reader.colon c₁ = some ((), c₂) →
          Holds RootReader.innerDepth c₂.rest v c₃.rest →
          Json.Members (Holds RootReader.innerDepth) false c₃.rest ms c'.rest →
          Json.Members (Holds RootReader.innerDepth) first c.rest ((key, v) :: ms) c'.rest :=
        fun hcolon hv hms => .cons hlead (.mk hquote hcloses hreads (Json.colon_sound hroomy₁ hcolon).1) hv hms
      dsimp only at h
      split at h
      · cases seen with
        | some v => simp at h
        | none =>
          simp only [outcome_bind, outcome_lift, Option.bind_eq_some_iff, Prod.exists] at h
          obtain ⟨_, c₂, hcolon, variant, c₃, htag, hms⟩ := h
          obtain ⟨v, hv, hroomy₃⟩ := tag_sound (Json.colon_sound hroomy₁ hcolon).2 htag
          obtain ⟨ms, hmembers, hroomy₄⟩ := ih hroomy₃ hms
          exact ⟨_, hcons hcolon hv hmembers, hroomy₄⟩
      · simp only [outcome_bind, outcome_lift, Option.bind_eq_some_iff, Prod.exists] at h
        obtain ⟨_, c₂, hcolon, v, c₃, hvalue, variant, rest, c₄, hms, hpure⟩ := h
        cases hpure
        obtain ⟨hv, hroomy₃⟩ := hE.sound (Json.colon_sound hroomy₁ hcolon).2 hvalue
        obtain ⟨ms, hmembers, hroomy₄⟩ := ih hroomy₃ hms
        exact ⟨_, hcons hcolon hv hmembers, hroomy₄⟩

private theorem root_sound {c c' : Cursor} {u : SourceUnit} (hroomy : c.Roomy)
    (h : outcome RootReader.root c = some (u, c')) : ∃ v, Holds Json.depthLimit c.rest v c'.rest := by
  have hdepth : Json.depthLimit = RootReader.innerDepth + 1 := rfl
  have hE := Json.element_value RootReader.innerDepth
  rw [RootReader.root, outcome_bind, outcome_lift, outcome_peekToken, Option.bind_some] at h
  dsimp only at h
  split at h
  · rename_i hhead
    obtain ⟨r, hr⟩ := List.head?_eq_some_iff.1 hhead
    obtain ⟨hrest, hroomy₁⟩ := hroomy.advance_token hr
    simp only [outcome_bind, outcome_lift, outcome_advance, outcome_stepBound, Option.bind_some,
      outcome_ofExcept, Option.bind_eq_some_iff, Option.map_eq_some_iff, Prod.exists] at h
    obtain ⟨variant, ms, c₁, hms, w, _, hpair⟩ := h
    cases hpair
    obtain ⟨ms, hmembers, _⟩ := rootMembers_sound hroomy₁ hms
    rw [hrest] at hmembers
    refine ⟨.object ms, ?_⟩
    rw [hdepth]
    exact .inr (by rw [← Json.rest_skipSpace, hr]; exact .object hmembers)
  · rename_i hhead
    obtain ⟨r, hr⟩ := List.head?_eq_some_iff.1 hhead
    obtain ⟨hrest, hroomy₁⟩ := hroomy.advance_token hr
    rw [outcome_bind, outcome_lift, outcome_advance, Option.bind_some, outcome_bind, outcome_lift,
      Option.bind_eq_some_iff] at h
    obtain ⟨⟨more, c₁⟩, hnext, h⟩ := h
    obtain ⟨hroomy₂, _, hmore⟩ := Json.nextElement_sound hroomy₁ hnext
    cases more with
    | false => simp at h
    | true =>
      obtain ⟨r₁, hlead, hr₁⟩ := hmore rfl
      simp only [if_true, outcome_bind, outcome_lift, outcome_stepBound, Option.bind_some,
        outcome_ofExcept, Option.bind_eq_some_iff, Option.map_eq_some_iff, Prod.exists] at h
      obtain ⟨variant, c₂, htag, items, c₃, hitems, w, _, hpair⟩ := h
      cases hpair
      obtain ⟨v, hv, hroomy₃⟩ := tag_sound hroomy₂ htag
      obtain ⟨helements, _⟩ := Json.items_sound hE hroomy₃ hitems
      rw [hr₁, hE.trimmed] at hv
      rw [hrest] at hlead
      refine ⟨.array (v :: items), ?_⟩
      rw [hdepth]
      exact .inr (by rw [← Json.rest_skipSpace, hr]; exact .array (.cons hlead hv helements))
  · simp at h

/-- A tree is loaded from the texts that hold a value which spells it. -/
theorem load_eq_ok_iff {text : String} {u : SourceUnit} :
    SourceUnit.load text = .ok u ↔ ∃ v, Json.parse text = .ok v ∧ decodeUnit v = .ok u := by
  constructor
  · intro h
    have hblank : Text.isBlank text = false := by
      rw [Bool.eq_false_iff]
      intro hblank
      rw [SourceUnit.load, if_pos hblank] at h
      cases h
    have hload := load_toOption_of_not_blank hblank
    rw [h, toOption_ok] at hload
    obtain ⟨⟨_, c⟩, hwhole, rfl⟩ := Option.map_eq_some_iff.1 hload.symm
    simp only [RootReader.whole, outcome_bind, outcome_lift, Option.bind_eq_some_iff, Prod.exists] at hwhole
    obtain ⟨u, c₁, hroot, _, c₂, hfinish, hpure⟩ := hwhole
    cases hpure
    obtain ⟨v, hholds⟩ := root_sound (Cursor.roomy_ofText text) hroot
    have hparse : Json.parse text = .ok v :=
      Json.parse_eq_ok_iff.2 ⟨c₁.rest, hholds, (Json.finish_eq_some_iff.1 hfinish).1⟩
    refine ⟨v, hparse, toOption_eq_some_iff.1 ?_⟩
    rw [← load_toOption hparse, h, toOption_ok]
  · rintro ⟨v, hparse, hdecode⟩
    rw [← toOption_eq_some_iff, load_toOption hparse, hdecode, toOption_ok]

end RegionIR.Schema
