import RegionIR.Proofs.Texts
/-!
# The exchange of a scalar

In a text that holds a value, a number or a word that stands outside of every string is a scalar of its
own. Another scalar may be written in its place: the text around it is read as before, and the value
differs in the one place. `Around` describes the value but for that place.
-/
namespace RegionIR.Json

open Lexical (code)
open Schema (outcome)

/-- A value that depends on what stands in one place of it. -/
inductive Around : (Value → Value) → Prop
  | here : Around fun w => w
  | item {K : Value → Value} (before after : List Value) (inner : Around K) :
      Around fun w => .array (before ++ K w :: after)
  | member {K : Value → Value} (before after : List (String × Value)) (key : String) (inner : Around K) :
      Around fun w => .object (before ++ (key, K w) :: after)

private def AroundItem (K : Value → List Value) : Prop :=
  ∃ before K₀ after, Around K₀ ∧ K = fun w => before ++ K₀ w :: after

private def AroundMember (K : Value → List (String × Value)) : Prop :=
  ∃ before key K₀ after, Around K₀ ∧ K = fun w => before ++ (key, K₀ w) :: after

def isBare (c : Char) : Bool := c = '-' || c.isDigit || c = 'n' || c = 't' || c = 'f'

/-- What may come right after a value in an array or an object. -/
def isDelimiter (c : Char) : Bool := Cursor.isSpace c || c = ',' || c = ']' || c = '\x7d'

def EndsOpen (p : List Char) : Prop := ∀ c ∈ p.getLast?, opensToken c = true

/-- What has gone before is no part of a token that goes on. -/
def Apart (p h : List Char) : Prop := h.head? = some 't' ∨ EndsOpen p

section Characters

variable {c : Char}

private theorem isBare_ne {x : Char} (h : isBare c = true) (hx : isBare x = false) : c ≠ x := by
  rintro rfl
  rw [hx] at h
  cases h

private theorem isSpace_of_isBare (h : isBare c = true) : Cursor.isSpace c = false := by
  simp [Cursor.isSpace, isBare_ne h (x := ' ') (by decide), isBare_ne h (x := '\n') (by decide),
    isBare_ne h (x := '\t') (by decide), isBare_ne h (x := '\r') (by decide)]

private theorem isDelimiter_of_isBare (h : isBare c = true) : isDelimiter c = false := by
  simp [isDelimiter, isSpace_of_isBare h, isBare_ne h (x := ',') (by decide),
    isBare_ne h (x := ']') (by decide), isBare_ne h (x := '\x7d') (by decide)]

end Characters

section Beginnings

variable {p q h r : List Char} {x : Char}

private theorem trim_eq_self (hh : ∀ c ∈ h.head?, Cursor.isSpace c = false) : trim h = h := by
  cases h with
  | nil => rfl
  | cons c h => simp [trim, hh c rfl]

private theorem trim_append (hh : ∀ c ∈ h.head?, Cursor.isSpace c = false) :
    trim (p ++ h) = trim p ++ h := by
  induction p with
  | nil => exact trim_eq_self hh
  | cons c p ih =>
    by_cases hc : Cursor.isSpace c = true
    · simpa [trim, hc] using ih
    · simp [trim, hc]

private theorem trim_append_of_ne_nil (hp : trim p ≠ []) (h : List Char) :
    trim (p ++ h) = trim p ++ h := by
  induction p with
  | nil => exact absurd rfl hp
  | cons c p ih =>
    by_cases hc : Cursor.isSpace c = true
    · have htrim : ∀ cs, trim (c :: cs) = trim cs := fun cs => by simp [trim, hc]
      rw [htrim] at hp
      rw [List.cons_append, htrim, htrim, ih hp]
    · simp [trim, hc]

private theorem trim_suffix (p : List Char) : trim p <:+ p := List.dropWhile_suffix _

private theorem exists_blank (p : List Char) :
    ∃ ws, (∀ c ∈ ws, Cursor.isSpace c = true) ∧ p = ws ++ trim p :=
  ⟨p.takeWhile Cursor.isSpace, fun _ hc => List.mem_takeWhile_imp hc,
    List.takeWhile_append_dropWhile.symm⟩

private theorem after_trim (hp : code.after p = .code) : code.after (trim p) = .code := by
  obtain ⟨ws, hws, heq⟩ := exists_blank p
  rw [heq, Lexical.after_append, Token.after_code] at hp
  · exact hp
  · rintro c hc rfl
    exact absurd (hws _ hc) (by decide)

private theorem after_of_trim (hp : code.after p = .code) (htrim : trim p = x :: q) (hx : x ≠ '"') :
    code.after q = .code := by
  have hafter := after_trim hp
  rwa [htrim, Lexical.after_cons, Lexical.step, if_neg hx] at hafter

private theorem suffix_of_trim (htrim : trim p = x :: q) : q <:+ p :=
  (List.suffix_cons x q).trans (htrim ▸ trim_suffix p)

private theorem EndsOpen.of_suffix (hq : EndsOpen q) (hsuffix : q <:+ p) (hne : q ≠ []) :
    EndsOpen p := by
  obtain ⟨s, rfl⟩ := hsuffix
  intro c hc
  rw [List.getLast?_append_of_ne_nil _ hne] at hc
  exact hq c hc

private theorem EndsOpen.suffix (hp : EndsOpen p) (hsuffix : q <:+ p) : EndsOpen q := by
  obtain ⟨s, rfl⟩ := hsuffix
  intro c hc
  have hne : q ≠ [] := by
    rintro rfl
    cases hc
  exact hp c (by rwa [List.getLast?_append_of_ne_nil _ hne])

private theorem EndsOpen.of_trim (hq : EndsOpen q) (htrim : trim p = x :: q) (hx : opensToken x = true) :
    EndsOpen p := by
  refine EndsOpen.of_suffix (q := x :: q) ?_ (htrim ▸ trim_suffix p) (by simp)
  intro c hc
  rw [List.getLast?_cons] at hc
  cases hlast : q.getLast? with
  | none =>
    rw [hlast] at hc
    cases hc
    exact hx
  | some d =>
    rw [hlast] at hc
    cases hc
    exact hq d hlast

private theorem EndsOpen.of_trim_eq_nil (htrim : trim p = []) : EndsOpen p := by
  intro c hc
  have hspace := List.dropWhile_eq_nil_iff.1 htrim c (List.mem_of_getLast? hc)
  simp [opensToken, hspace]

private theorem Apart.suffix (hp : Apart p h) (hsuffix : q <:+ p) : Apart q h :=
  hp.imp_right fun hopen => hopen.suffix hsuffix

private theorem split_at_token (hh : ∀ c ∈ h.head?, isBare c = true) (hx : isBare x = false)
    (heq : trim (p ++ h) = x :: r) : ∃ q, trim p = x :: q ∧ r = q ++ h := by
  rw [trim_append fun c hc => isSpace_of_isBare (hh c hc)] at heq
  cases htrim : trim p with
  | nil =>
    rw [htrim, List.nil_append] at heq
    rw [hh x (by rw [heq]; rfl)] at hx
    cases hx
  | cons y q =>
    rw [htrim] at heq
    obtain ⟨rfl, rfl⟩ := List.cons.inj heq
    exact ⟨q, rfl, rfl⟩

/-- A token either lies before a bare one as a whole or starts where that one does. -/
theorem Token.parted {t : List Char} (ht : Token t) (heq : p ++ h = t ++ r) (hp : code.after p = .code)
    (hapart : Apart p h) : (∃ q, p = t ++ q ∧ r = q ++ h) ∨ p = [] := by
  by_contra hnot
  rw [not_or] at hnot
  rcases List.append_eq_append_iff.1 heq with ⟨y, rfl, rfl⟩ | ⟨q, rfl, rfl⟩
  · have hy : y ≠ [] := by
      rintro rfl
      exact hnot.1 ⟨[], by simp, by simp⟩
    obtain ⟨hhead, hlast⟩ := ht.whole p y rfl hnot.2 hy hp
    rcases hapart with hstart | hopen
    · rw [List.head?_append_of_ne_nil _ hy] at hstart
      exact hhead hstart
    · have hmem := List.getLast?_eq_some_getLast hnot.2
      have hfalse := hlast _ hmem
      rw [hopen _ hmem] at hfalse
      cases hfalse
  · exact hnot.1 ⟨q, rfl, rfl⟩

end Beginnings

/-- The derivation ends before the text `h` starts, or right where it starts. Unless it is the latter,
it does not depend on `h`. -/
def Before {α : Type} (R : List Char → α → List Char → Prop) (h p : List Char) (x : α) (r : List Char) :
    Prop :=
  ∃ q, r = q ++ h ∧ q <:+ p ∧ code.after q = .code ∧ (q ≠ [] → ∀ h', R (p ++ h') x (q ++ h'))

/-- The derivation is that of the scalar `h` starts with, which may be any other. -/
def At (R : List Char → Value → List Char → Prop) (h p : List Char) (v : Value) (r : List Char) : Prop :=
  Scalar h v r ∧ EndsOpen p ∧ ∀ h' w, Scalar h' w r → R (p ++ h') w r

/-- The derivation goes over the scalar `h` starts with, which may be any other. -/
def Inside {α : Type} (C : (Value → α) → Prop) (R : List Char → α → List Char → Prop) (h p : List Char)
    (x : α) (r : List Char) : Prop :=
  ∃ K w r₀, C K ∧ x = K w ∧ Scalar h w r₀ ∧ EndsOpen p ∧ (∀ c ∈ r₀.head?, isDelimiter c = true) ∧
    ∀ h' w', Scalar h' w' r₀ → R (p ++ h') (K w') r

/-- The ways in which an element is derived from a text that has `h` in it. -/
def Parted (E : List Char → Value → List Char → Prop) (h : List Char) : Prop :=
  ∀ {p v r}, E (p ++ h) v r → code.after p = .code → Apart p h →
    Before E h p v r ∨ At E h p v r ∨ Inside Around E h p v r

section Derivations

variable {h : List Char} (hh : ∀ c ∈ h.head?, isBare c = true) {first : Bool} {p r : List Char}

private theorem Scalar.solid {v : Value} (hs : Scalar h v r) :
    ∀ c ∈ h.head?, Cursor.isSpace c = false := by
  cases hs with
  | @token first t r v head solid =>
    intro c hc
    rw [List.head?_append, head] at hc
    cases hc
    exact solid

private theorem Scalar.isScalar {v : Value} (hs : Scalar h v r) : Schema.IsScalar v := by
  cases hs with
  | @token first t r v head solid plain token reads =>
    obtain ⟨c', hrun, _⟩ := reads (.ofText (String.ofList (t ++ r))) r String.toList_ofList rfl
      (Cursor.roomy_ofText _)
    exact (Schema.scalar_cases hrun).1

private theorem delimiter_of_trim {cs : List Char} {x : Char} (htrim : trim cs = x :: r)
    (hx : isDelimiter x = true) :
    ∀ c ∈ cs.head?, isDelimiter c = true := by
  intro c hc
  obtain ⟨cs, rfl⟩ := List.head?_eq_some_iff.1 hc
  by_cases hspace : Cursor.isSpace c = true
  · simp [isDelimiter, hspace]
  · rw [trim_eq_self (by simpa using hspace)] at htrim
    cases htrim
    exact hx

private theorem Items.delimited {E : List Char → Value → List Char → Prop} {cs : List Char}
    {vs : List Value} (hitems : Items E false cs vs r) : ∀ c ∈ cs.head?, isDelimiter c = true := by
  cases hitems with
  | stop bracket => exact delimiter_of_trim bracket (by decide)
  | cons lead =>
    cases lead with
    | comma comma => exact delimiter_of_trim comma (by decide)

private theorem Members.delimited {E : List Char → Value → List Char → Prop} {cs : List Char}
    {ms : List (String × Value)} (hmembers : Members E false cs ms r) :
    ∀ c ∈ cs.head?, isDelimiter c = true := by
  cases hmembers with
  | stop brace => exact delimiter_of_trim brace (by decide)
  | cons lead =>
    cases lead with
    | comma comma => exact delimiter_of_trim comma (by decide)

include hh

private theorem ne_nil_of_delimited {q : List Char} (hne : h ≠ [])
    (hdelimited : ∀ c ∈ (q ++ h).head?, isDelimiter c = true) : q ≠ [] := by
  rintro rfl
  obtain ⟨c, h, rfl⟩ := List.exists_cons_of_ne_nil hne
  have hfalse := isDelimiter_of_isBare (hh c rfl)
  rw [hdelimited c rfl] at hfalse
  cases hfalse

private theorem Lead.parted (hlead : Lead first (p ++ h) r) (hp : code.after p = .code) :
    ∃ q, r = q ++ h ∧ q <:+ p ∧ code.after q = .code ∧ (EndsOpen q → EndsOpen p) ∧
      ∀ h', Lead first (p ++ h') (q ++ h') := by
  generalize hcs : p ++ h = cs at hlead
  cases hlead with
  | first =>
    subst hcs
    exact ⟨p, rfl, List.suffix_refl p, hp, id, fun h' => .first _⟩
  | comma comma =>
    subst hcs
    obtain ⟨q, htrim, rfl⟩ := split_at_token hh (by decide) comma
    refine ⟨q, rfl, suffix_of_trim htrim, after_of_trim hp htrim (by decide),
      fun hq => hq.of_trim htrim (by decide), fun h' => .comma ?_⟩
    rw [trim_append_of_ne_nil (by simp [htrim]), htrim, List.cons_append]

private theorem Key.parted {key : String} (hkey : Key (p ++ h) key r) (hp : code.after p = .code)
    (hapart : Apart p h) :
    ∃ q, r = q ++ h ∧ q <:+ p ∧ code.after q = .code ∧ (EndsOpen q → EndsOpen p) ∧
      ∀ h', Key (p ++ h') key (q ++ h') := by
  have hsolid : ∀ c ∈ h.head?, Cursor.isSpace c = false := fun c hc => isSpace_of_isBare (hh c hc)
  generalize hcs : p ++ h = cs at hkey
  obtain ⟨quote, closes, reads, colon⟩ := hkey
  rename_i t mid
  subst hcs
  rw [trim_append hsolid] at quote
  rcases (Token.of_string closes).parted quote (after_trim hp) (hapart.suffix (trim_suffix p)) with
    ⟨q₁, hq₁, rfl⟩ | hnil
  · have hafter := after_trim hp
    rw [hq₁, Lexical.after_append, (Token.of_string closes).outside] at hafter
    obtain ⟨q, htrim, rfl⟩ := split_at_token hh (by decide) colon
    have hsuffix : q₁ <:+ p := (List.suffix_append ('"' :: t) q₁).trans (hq₁ ▸ trim_suffix p)
    have hquote : ∀ h', trim (p ++ h') = '"' :: t ++ (q₁ ++ h') := fun h' => by
      rw [trim_append_of_ne_nil (by simp [hq₁]), hq₁, List.append_assoc]
    have hcolon : ∀ h', trim (q₁ ++ h') = ':' :: (q ++ h') := fun h' => by
      rw [trim_append_of_ne_nil (by simp [htrim]), htrim, List.cons_append]
    refine ⟨q, rfl, (suffix_of_trim htrim).trans hsuffix, after_of_trim hafter htrim (by decide),
      fun hq => (hq.of_trim htrim (by decide)).of_suffix hsuffix ?_,
      fun h' => .mk (hquote h') closes reads (hcolon h')⟩
    rintro rfl
    cases htrim
  · rw [hnil, List.nil_append] at quote
    have hbare := hh '"' (by rw [quote]; rfl)
    exact absurd hbare (by decide)

variable {E : List Char → Value → List Char → Prop} (hE : Parted E h) (hne : h ≠ [])

include hE hne

private theorem Items.parted {vs : List Value} (hitems : Items E first (p ++ h) vs r)
    (hp : code.after p = .code) (hapart : Apart p h) :
    Before (Items E first) h p vs r ∨ Inside AroundItem (Items E first) h p vs r := by
  generalize hcs : p ++ h = cs at hitems
  induction hitems generalizing p with
  | stop bracket =>
    subst hcs
    obtain ⟨q, htrim, rfl⟩ := split_at_token hh (by decide) bracket
    refine .inl ⟨q, rfl, suffix_of_trim htrim, after_of_trim hp htrim (by decide), fun _ h' => .stop ?_⟩
    rw [trim_append_of_ne_nil (by simp [htrim]), htrim, List.cons_append]
  | @cons first cs cs' mid r v vs lead element rest ih =>
    subst hcs
    obtain ⟨q, rfl, hsuffix, hq, hopen, hlead⟩ := lead.parted hh hp
    rcases hE element hq (hapart.suffix hsuffix) with ⟨q₁, rfl, hsuffix₁, hq₁, helement⟩ |
      ⟨hscalar, hends, helement⟩ | ⟨K, w, r₀, hK, rfl, hscalar, hends, hdelimited, helement⟩
    · have hne₁ : q₁ ≠ [] := ne_nil_of_delimited hh hne rest.delimited
      have hsuffix₂ := hsuffix₁.trans hsuffix
      rcases ih hq₁ (hapart.suffix hsuffix₂) rfl with ⟨q₂, rfl, hsuffix₃, hq₂, hrest⟩ |
        ⟨K, w, r₀, ⟨before, K₀, after, hK₀, rfl⟩, rfl, hscalar, hends, hdelimited, hrest⟩
      · exact .inl ⟨q₂, rfl, hsuffix₃.trans hsuffix₂, hq₂, fun hne₂ h' =>
          .cons (hlead h') (helement hne₁ h') (hrest hne₂ h')⟩
      · exact .inr ⟨fun w => v :: before ++ K₀ w :: after, w, r₀, ⟨v :: before, K₀, after, hK₀, rfl⟩, rfl,
          hscalar, hends.of_suffix hsuffix₂ hne₁, hdelimited, fun h' w' hw' =>
          .cons (hlead h') (helement hne₁ h') (hrest h' w' hw')⟩
    · exact .inr ⟨fun w => w :: vs, v, mid, ⟨[], fun w => w, vs, .here, rfl⟩, rfl, hscalar, hopen hends,
        rest.delimited, fun h' w' hw' => .cons (hlead h') (helement h' w' hw') rest⟩
    · exact .inr ⟨fun w => K w :: vs, w, r₀, ⟨[], K, vs, hK, rfl⟩, rfl, hscalar, hopen hends, hdelimited,
        fun h' w' hw' => .cons (hlead h') (helement h' w' hw') rest⟩

private theorem Members.parted {ms : List (String × Value)} (hmembers : Members E first (p ++ h) ms r)
    (hp : code.after p = .code) (hapart : Apart p h) :
    Before (Members E first) h p ms r ∨ Inside AroundMember (Members E first) h p ms r := by
  generalize hcs : p ++ h = cs at hmembers
  induction hmembers generalizing p with
  | stop brace =>
    subst hcs
    obtain ⟨q, htrim, rfl⟩ := split_at_token hh (by decide) brace
    refine .inl ⟨q, rfl, suffix_of_trim htrim, after_of_trim hp htrim (by decide), fun _ h' => .stop ?_⟩
    rw [trim_append_of_ne_nil (by simp [htrim]), htrim, List.cons_append]
  | @cons first cs cs' mid mid' r key v ms lead name element rest ih =>
    subst hcs
    obtain ⟨q₀, rfl, hsuffix₀, hq₀, hopen₀, hlead⟩ := lead.parted hh hp
    obtain ⟨q, rfl, hsuffix', hq, hopen, hname⟩ := name.parted hh hq₀ (hapart.suffix hsuffix₀)
    have hsuffix := hsuffix'.trans hsuffix₀
    rcases hE element hq (hapart.suffix hsuffix) with ⟨q₁, rfl, hsuffix₁, hq₁, helement⟩ |
      ⟨hscalar, hends, helement⟩ | ⟨K, w, r₀, hK, rfl, hscalar, hends, hdelimited, helement⟩
    · have hne₁ : q₁ ≠ [] := ne_nil_of_delimited hh hne rest.delimited
      have hsuffix₂ := hsuffix₁.trans hsuffix
      rcases ih hq₁ (hapart.suffix hsuffix₂) rfl with ⟨q₂, rfl, hsuffix₃, hq₂, hrest⟩ |
        ⟨K, w, r₀, ⟨before, key', K₀, after, hK₀, rfl⟩, rfl, hscalar, hends, hdelimited, hrest⟩
      · exact .inl ⟨q₂, rfl, hsuffix₃.trans hsuffix₂, hq₂, fun hne₂ h' =>
          .cons (hlead h') (hname h') (helement hne₁ h') (hrest hne₂ h')⟩
      · exact .inr ⟨fun w => (key, v) :: before ++ (key', K₀ w) :: after, w, r₀,
          ⟨(key, v) :: before, key', K₀, after, hK₀, rfl⟩, rfl, hscalar, hends.of_suffix hsuffix₂ hne₁,
          hdelimited, fun h' w' hw' => .cons (hlead h') (hname h') (helement hne₁ h') (hrest h' w' hw')⟩
    · exact .inr ⟨fun w => (key, w) :: ms, v, mid', ⟨[], key, fun w => w, ms, .here, rfl⟩, rfl, hscalar,
        hopen₀ (hopen hends), rest.delimited, fun h' w' hw' =>
        .cons (hlead h') (hname h') (helement h' w' hw') rest⟩
    · exact .inr ⟨fun w => (key, K w) :: ms, w, r₀, ⟨[], key, K, ms, hK, rfl⟩, rfl, hscalar,
        hopen₀ (hopen hends), hdelimited, fun h' w' hw' =>
        .cons (hlead h') (hname h') (helement h' w' hw') rest⟩

omit hE hne in
private theorem Scalar.parted {R : List Char → Value → List Char → Prop}
    (hR : ∀ {cs v r}, Scalar (trim cs) v r → R cs v r) {v : Value} (hscalar : Scalar (trim (p ++ h)) v r)
    (hp : code.after p = .code) (hapart : Apart p h) : Before R h p v r ∨ At R h p v r := by
  rw [trim_append fun c hc => isSpace_of_isBare (hh c hc)] at hscalar
  generalize hcs : trim p ++ h = cs at hscalar
  cases hscalar with
  | @token first t r v head solid plain token reads =>
    rcases token.parted hcs (after_trim hp) (hapart.suffix (trim_suffix p)) with ⟨q, hq, rfl⟩ | hnil
    · refine .inl ⟨q, rfl, (List.suffix_append t q).trans (hq ▸ trim_suffix p), ?_, fun hne h' => hR ?_⟩
      · have hafter := after_trim hp
        rwa [hq, Lexical.after_append, token.outside] at hafter
      · have htrim : trim p ≠ [] := by
          obtain ⟨t, rfl⟩ := List.head?_eq_some_iff.1 head
          simp [hq]
        rw [trim_append_of_ne_nil htrim, hq, List.append_assoc]
        rw [List.head?_append_of_ne_nil _ hne] at reads
        exact .token head solid plain token (by rwa [List.head?_append_of_ne_nil _ hne])
    · refine .inr ⟨?_, .of_trim_eq_nil hnil, fun h' w hw => hR ?_⟩
      · rw [hnil, List.nil_append] at hcs
        rw [hcs]
        exact .token head solid plain token reads
      · rwa [trim_append hw.solid, hnil, List.nil_append]

private theorem Compound.parted {v : Value} (hcompound : Compound E (trim (p ++ h)) v r)
    (hp : code.after p = .code) (hapart : Apart p h) :
    Before (fun cs => Compound E (trim cs)) h p v r ∨
      Inside Around (fun cs => Compound E (trim cs)) h p v r := by
  generalize hcs : trim (p ++ h) = cs at hcompound
  cases hcompound with
  | array elements =>
    obtain ⟨q, htrim, rfl⟩ := split_at_token hh (by decide) hcs
    have harray : ∀ {h' items r}, Items E true (q ++ h') items r → Compound E (trim (p ++ h')) (.array items) r :=
      fun hitems => by
        rw [trim_append_of_ne_nil (by simp [htrim]), htrim]
        exact .array hitems
    have hsuffix := suffix_of_trim htrim
    rcases elements.parted hh hE hne (after_of_trim hp htrim (by decide)) (hapart.suffix hsuffix) with
      ⟨q₁, rfl, hsuffix₁, hq₁, hitems⟩ |
        ⟨K, w, r₀, ⟨before, K₀, after, hK₀, rfl⟩, rfl, hscalar, hends, hdelimited, hitems⟩
    · exact .inl ⟨q₁, rfl, hsuffix₁.trans hsuffix, hq₁, fun hne₁ h' => harray (hitems hne₁ h')⟩
    · exact .inr ⟨fun w => .array (before ++ K₀ w :: after), w, r₀, .item before after hK₀, rfl, hscalar,
        hends.of_trim htrim (by decide), hdelimited, fun h' w' hw' => harray (hitems h' w' hw')⟩
  | object members =>
    obtain ⟨q, htrim, rfl⟩ := split_at_token hh (by decide) hcs
    have hobject : ∀ {h' ms r}, Members E true (q ++ h') ms r → Compound E (trim (p ++ h')) (.object ms) r :=
      fun hmembers => by
        rw [trim_append_of_ne_nil (by simp [htrim]), htrim]
        exact .object hmembers
    have hsuffix := suffix_of_trim htrim
    rcases members.parted hh hE hne (after_of_trim hp htrim (by decide)) (hapart.suffix hsuffix) with
      ⟨q₁, rfl, hsuffix₁, hq₁, hmembers⟩ |
        ⟨K, w, r₀, ⟨before, key, K₀, after, hK₀, rfl⟩, rfl, hscalar, hends, hdelimited, hmembers⟩
    · exact .inl ⟨q₁, rfl, hsuffix₁.trans hsuffix, hq₁, fun hne₁ h' => hobject (hmembers hne₁ h')⟩
    · exact .inr ⟨fun w => .object (before ++ (key, K₀ w) :: after), w, r₀, .member before after key hK₀,
        rfl, hscalar, hends.of_trim htrim (by decide), hdelimited, fun h' w' hw' => hobject (hmembers h' w' hw')⟩

omit hE in
/-- A bare token in a text that holds a value is a scalar of its own, and any other may take its place. -/
theorem holds_parted (depth : Nat) : Parted (Holds depth) h := by
  induction depth with
  | zero => exact fun hv hp hapart => (Scalar.parted hh id hv hp hapart).imp_right .inl
  | succ depth ih =>
    intro p v r hv hp hapart
    rcases hv with hscalar | hcompound
    · exact (Scalar.parted hh .inl hscalar hp hapart).imp_right .inl
    · rcases hcompound.parted hh ih hne hp hapart with ⟨q, hr, hsuffix, hq, hlocal⟩ |
        ⟨K, w, r₀, hK, hv, hscalar, hends, hdelimited, hlocal⟩
      · exact .inl ⟨q, hr, hsuffix, hq, fun hne₁ h' => .inr (hlocal hne₁ h')⟩
      · exact .inr (.inr ⟨K, w, r₀, hK, hv, hscalar, hends, hdelimited, fun h' w' hw' => .inr (hlocal h' w' hw')⟩)

end Derivations

/-- What the scalar reader makes of a token in front of the given characters, if anything. -/
def Spells (t post : List Char) (x : Option Value) : Prop :=
  ∀ (c : Cursor) (first : Char), c.Roomy → c.rest = t ++ post → t.head? = some first →
    (outcome (Reader.scalar first) c).map (fun run => (run.1, run.2.rest)) = x.map fun v => (v, post)

section Spelling

variable {t post : List Char} {first : Char} {x : Option Value}

private theorem Spells.scalar_iff (h : Spells t post x) (hhead : t.head? = some first) {v : Value}
    {r : List Char} :
    Scalar (t ++ post) v r ↔ x = some v ∧ r = post := by
  -- a text that holds nothing else gives a cursor to run the reader at
  obtain ⟨c, hroomy, hrest⟩ : ∃ c : Cursor, c.Roomy ∧ c.rest = t ++ post :=
    ⟨.ofText (String.ofList (t ++ post)), Cursor.roomy_ofText _, String.toList_ofList⟩
  have hrun := h c first hroomy hrest hhead
  constructor
  · intro hscalar
    generalize hcs : t ++ post = cs at hscalar
    cases hscalar with
    | @token first' t' r v head solid plain token reads =>
      have heq : some first = some first' := by
        simpa [List.head?_append, hhead, head] using congrArg List.head? hcs
      cases heq
      obtain ⟨c', hrun', hrest', _⟩ := reads c r (hrest.trans hcs) rfl hroomy
      rw [hrun', Option.map_some, hrest'] at hrun
      obtain ⟨w, hw, hpair⟩ := Option.map_eq_some_iff.1 hrun.symm
      obtain ⟨rfl, rfl⟩ := Prod.mk.inj hpair
      exact ⟨hw, rfl⟩
  · rintro ⟨rfl, rfl⟩
    obtain ⟨⟨w, c'⟩, hrun', hpair⟩ := Option.map_eq_some_iff.1 hrun
    obtain ⟨rfl, rfl⟩ := Prod.mk.inj hpair
    have hscalar := (scalar_sound hroomy (by rw [hrest, List.head?_append, hhead]; rfl) hrun').1
    rwa [hrest] at hscalar

private theorem spells_word {w : List Char} {v : Value}
    (hword : ∀ first, w.head? = some first → Reader.scalar first = (Reader.letters w >>= fun _ => pure v))
    (post : List Char) : Spells w post (some v) := by
  intro c first hroomy hrest hfirst
  obtain ⟨c', hrun, hleft, _⟩ := Reader.letters_reads w post.head? c post hrest rfl hroomy
  rw [hword first hfirst]
  simp [hrun, hleft]

private theorem spells_true (post : List Char) :
    Spells ['t', 'r', 'u', 'e'] post (some (.bool true)) := by
  refine spells_word (fun first hfirst => ?_) post
  cases hfirst
  rfl

theorem spells_false (post : List Char) : Spells ['f', 'a', 'l', 's', 'e'] post (some (.bool false)) := by
  refine spells_word (fun first hfirst => ?_) post
  cases hfirst
  rfl

end Spelling

/-- A place in a text where any scalar may be written, and the value around it. -/
structure Gap (pre post : String) (K : Value → Value) : Prop where
  around : Around K
  outside : code.after pre.toList = .code
  opens : EndsOpen pre.toList
  delimited : ∀ c ∈ post.toList.head?, isDelimiter c = true
  fits : ∀ {t : String} {w : Value}, Scalar (t.toList ++ post.toList) w post.toList →
    parse (pre ++ t ++ post) = .ok (K w)

section Gaps

variable {pre post : String} {K : Value → Value} {t : String} {v : Value}

private theorem inside_of_parse {first : Char} (hhead : t.toList.head? = some first)
    (hfirst : isBare first = true)
    (houtside : code.after pre.toList = .code) (hapart : Apart pre.toList (t.toList ++ post.toList))
    (hparse : parse (pre ++ t ++ post) = .ok v) (hv : ¬Schema.IsScalar v) :
    ∃ r, trim r = [] ∧ Inside Around (Holds depthLimit) (t.toList ++ post.toList) pre.toList v r := by
  obtain ⟨r, hholds, hend⟩ := parse_eq_ok_iff.1 hparse
  rw [String.toList_append, String.toList_append, List.append_assoc] at hholds
  have hheads : (t.toList ++ post.toList).head? = some first := by rw [List.head?_append, hhead]; rfl
  have hbare : ∀ c ∈ (t.toList ++ post.toList).head?, isBare c = true := by
    rw [hheads]
    rintro c hc
    cases hc
    exact hfirst
  have hne : t.toList ++ post.toList ≠ [] := by
    intro hnil
    rw [hnil] at hheads
    cases hheads
  refine ⟨r, hend, ?_⟩
  rcases holds_parted hbare hne depthLimit hholds houtside hapart with ⟨q, rfl, _⟩ | ⟨hscalar, _⟩ | hinside
  · rw [trim_append fun c hc => isSpace_of_isBare (hbare c hc)] at hend
    exact absurd (List.append_eq_nil_iff.1 hend).2 hne
  · exact absurd hscalar.isScalar hv
  · exact hinside

theorem exists_gap (houtside : code.after pre.toList = .code) (hparse : parse (pre ++ "true" ++ post) = .ok v)
    (hv : ¬Schema.IsScalar v) : ∃ K, Gap pre post K ∧ v = K (.bool true) := by
  obtain ⟨r, hend, K, w, r₀, hK, rfl, hscalar, hopens, hdelimited, hlocal⟩ :=
    inside_of_parse rfl (by decide) houtside (.inl rfl) hparse hv
  obtain ⟨hw, rfl⟩ := ((spells_true post.toList).scalar_iff rfl).1 hscalar
  cases hw
  refine ⟨K, ⟨hK, houtside, hopens, hdelimited, fun {t w} hw => ?_⟩, rfl⟩
  refine parse_eq_ok_iff.2 ⟨r, ?_, hend⟩
  simpa using hlocal _ w hw

/-- What is spelled in a gap is what stands there in the value; if nothing is, there is no such value. -/
theorem Gap.spelled (gap : Gap pre post K) {first : Char} (hhead : t.toList.head? = some first)
    (hfirst : isBare first = true) {x : Option Value} (hspells : Spells t.toList post.toList x) :
    (∀ w, x = some w → parse (pre ++ t ++ post) = .ok (K w)) ∧
      (x = none → ∀ v, parse (pre ++ t ++ post) = .ok v → Schema.IsScalar v) := by
  refine ⟨fun w hw => gap.fits ((hspells.scalar_iff hhead).2 ⟨hw, rfl⟩), ?_⟩
  rintro rfl v hparse
  by_contra hv
  obtain ⟨r, _, K, w, r₀, _, _, hscalar, _⟩ :=
    inside_of_parse hhead hfirst gap.outside (.inr gap.opens) hparse hv
  cases ((hspells.scalar_iff hhead).1 hscalar).1

end Gaps

end RegionIR.Json
