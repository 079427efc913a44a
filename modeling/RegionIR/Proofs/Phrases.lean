import RegionIR.Proofs.Legibility
import RegionIR.Tree.Written
/-!
# The parts of a written expression

The text of an expression shows neither places nor the kinds of literals. What it does show comes in parts
that can be told apart: an expression is a sign or operands with connectives between them, and an operand
is an atom with trailers, which are attributes, slices and calls. Operations inside an operand stand in
brackets and so are atoms.
-/
namespace RegionIR

namespace Expr

mutual

/-- An expression without places and without the kinds of its literals. -/
def stripped : Expr → Expr
  | mk form _ => mk (strippedForm form) none
termination_by structural e => e

def strippedForm : ExprForm → ExprForm
  | .boolOp op values => .boolOp op (strippedAll values)
  | .binOp left op right => .binOp (stripped left) op (stripped right)
  | .unaryOp op operand => .unaryOp op (stripped operand)
  | .compare left ops comparators => .compare (stripped left) ops (strippedAll comparators)
  | .call func args keywords => .call (stripped func) (strippedAll args) (strippedKeywords keywords)
  | .constant value _ => .constant value none
  | .attr value name => .attr (stripped value) name
  | .subscript value slice => .subscript (stripped value) (stripped slice)
  | .starred value => .starred (stripped value)
  | .name id => .name id
  | .list elts => .list (strippedAll elts)
  | .tuple elts => .tuple (strippedAll elts)
  | .index value => .index (stripped value)
  | .bare kind => .bare kind
termination_by structural f => f

def strippedAll : List Expr → List Expr
  | [] => []
  | e :: rest => stripped e :: strippedAll rest
termination_by structural es => es

def strippedKeywords : List Keyword → List Keyword
  | [] => []
  | .mk arg value :: rest => .mk arg (stripped value) :: strippedKeywords rest
termination_by structural ks => ks

end

private theorem isOperation_stripped (e : Expr) : e.stripped.isOperation = e.isOperation := by
  obtain ⟨form, span⟩ := e
  cases form <;> rfl

private theorem strippedAll_length (es : List Expr) : (strippedAll es).length = es.length := by
  induction es with
  | nil => rfl
  | cons e rest ih => rw [strippedAll, List.length_cons, ih, List.length_cons]

/-- What stands between the brackets of a subscript: a tuple shows its elements. -/
def sliceItems : Expr → List Expr
  | mk (.tuple elts) _ => elts
  | e => [e]

private theorem written_subscript_items (value slice : Expr) (span : Option Span) :
    (mk (.subscript value slice) span).written = parenthesized value.isOperation value.written ++ "[" ++
      commaSeparated (writtenAll slice.sliceItems) ++ "]" := by
  have hsingle : ∀ e : Expr, e.written = commaSeparated (writtenAll [e]) := by
    intro e
    simp [writtenAll, commaSeparated]
  obtain ⟨form, place⟩ := slice
  cases form with
  | tuple elts => rfl
  | _ => exact congrArg (parenthesized value.isOperation value.written ++ "[" ++ · ++ "]") (hsingle _)

mutual

theorem written_stripped : (e : Expr) → e.stripped.written = e.written
  | mk form span => by
    rw [stripped]
    exact written_strippedForm form span

theorem written_strippedForm : (f : ExprForm) → ∀ span : Option Span,
    (mk (strippedForm f) none).written = (mk f span).written
  | .boolOp op values, span => by
    simp only [strippedForm, written, writtenOperands_strippedAll values]
  | .binOp left op right, span => by
    simp only [strippedForm, written, written_stripped left, written_stripped right, isOperation_stripped]
  | .unaryOp op operand, span => by
    simp only [strippedForm, written, written_stripped operand, isOperation_stripped]
  | .compare left ops comparators, span => by
    simp only [strippedForm, written, written_stripped left, isOperation_stripped,
      writtenOperands_strippedAll comparators]
  | .call func args keywords, span => by
    simp only [strippedForm, written, written_stripped func, isOperation_stripped,
      writtenAll_strippedAll args, writtenKeywords_stripped keywords]
  | .constant value kind, span => rfl
  | .attr value name, span => by
    simp only [strippedForm, written, written_stripped value, isOperation_stripped]
  | .subscript value slice, span => by
    rw [strippedForm, written_subscript_items, written_subscript_items, written_stripped value,
      isOperation_stripped, writtenAll_sliceItems slice]
  | .starred value, span => by simp only [strippedForm, written, written_stripped value]
  | .name id, span => rfl
  | .list elts, span => by simp only [strippedForm, written, writtenAll_strippedAll elts]
  | .tuple elts, span => by
    simp only [strippedForm, written, writtenAll_strippedAll elts, strippedAll_length]
  | .index value, span => by simp only [strippedForm, written, written_stripped value]
  | .bare kind, span => rfl

theorem writtenAll_sliceItems : (e : Expr) → writtenAll e.stripped.sliceItems = writtenAll e.sliceItems
  | mk form span => by
    cases form with
    | tuple elts => exact writtenAll_strippedAll elts
    | _ => exact congrArg (fun t => [t]) (written_strippedForm _ _)

theorem writtenAll_strippedAll : (es : List Expr) → writtenAll (strippedAll es) = writtenAll es
  | [] => rfl
  | e :: rest => by
    rw [strippedAll, writtenAll, writtenAll, written_stripped e, writtenAll_strippedAll rest]

theorem writtenOperands_strippedAll : (es : List Expr) →
    writtenOperands (strippedAll es) = writtenOperands es
  | [] => rfl
  | e :: rest => by
    rw [strippedAll, writtenOperands, writtenOperands, written_stripped e, isOperation_stripped,
      writtenOperands_strippedAll rest]

theorem writtenKeywords_stripped : (ks : List Keyword) →
    writtenKeywords (strippedKeywords ks) = writtenKeywords ks
  | [] => rfl
  | .mk (some name) value :: rest => by
    rw [strippedKeywords, writtenKeywords, writtenKeywords, written_stripped value,
      writtenKeywords_stripped rest]
  | .mk none value :: rest => by
    rw [strippedKeywords, writtenKeywords, writtenKeywords, written_stripped value,
      writtenKeywords_stripped rest]

end

end Expr

def isNameChar (c : Char) : Bool := c.isAlphanum || c = '_'

def isIdentifier (s : String) : Bool :=
  s.toList.head?.any (fun c => c.isAlpha || c = '_') && s.toList.all isNameChar

def reservedWords : List String := ["None", "True", "False", "and", "or", "not", "in", "is"]

/-- A literal without floating point numbers and signs, whose numbers are held as digits only where they
do not fit 64 signed bits. -/
inductive Literal.Readable : Literal → Prop
  | none : Readable none
  | bool (b : Bool) : Readable (bool b)
  | int {n : Nat} (fits : n < 2 ^ 63) : Readable (int n)
  | bigInt {n : Nat} (large : 2 ^ 63 ≤ n) : Readable (bigInt (toString n))
  | text (s : String) : Readable (text s)

namespace Expr

/-- A stripped expression that its text determines. The flag allows a star in front. -/
inductive Readable : Bool → Expr → Prop
  | name {star : Bool} {id : String} (word : isIdentifier id = true) (free : id ∉ reservedWords) :
      Readable star (mk (.name id) none)
  | constant {star : Bool} {l : Literal} (literal : l.Readable) : Readable star (mk (.constant l none) none)
  | attr {star : Bool} {value : Expr} {name : String} (value_readable : Readable false value)
      (word : isIdentifier name = true) : Readable star (mk (.attr value name) none)
  | subscript {star : Bool} {value slice : Expr} (value_readable : Readable false value)
      (slice_readable : Readable false slice)
      (pair : ∀ elts, slice.form = .tuple elts → 2 ≤ elts.length) :
      Readable star (mk (.subscript value slice) none)
  | binOp {star : Bool} {left right : Expr} (op : BinaryOperator) (left_readable : Readable false left)
      (right_readable : Readable false right) : Readable star (mk (.binOp left op right) none)
  | unaryOp {star : Bool} {operand : Expr} (op : UnaryOperator)
      (operand_readable : Readable false operand) : Readable star (mk (.unaryOp op operand) none)
  | boolOp {star : Bool} {values : List Expr} (op : BoolOperator) (several : 2 ≤ values.length)
      (readable : ∀ e ∈ values, Readable false e) : Readable star (mk (.boolOp op values) none)
  | compare {star : Bool} {left : Expr} {ops : List CmpOperator} {comparators : List Expr}
      (some : 1 ≤ ops.length) (length_eq : ops.length = comparators.length)
      (left_readable : Readable false left) (readable : ∀ e ∈ comparators, Readable false e) :
      Readable star (mk (.compare left ops comparators) none)
  | call {star : Bool} {func : Expr} {args : List Expr} {keywords : List Keyword}
      (func_readable : Readable false func) (args_readable : ∀ e ∈ args, Readable true e)
      (words : ∀ k ∈ keywords, ∀ name ∈ k.arg, isIdentifier name = true)
      (values_readable : ∀ k ∈ keywords, Readable false k.value) :
      Readable star (mk (.call func args keywords) none)
  | list {star : Bool} {elts : List Expr} (readable : ∀ e ∈ elts, Readable true e) :
      Readable star (mk (.list elts) none)
  | tuple {star : Bool} {elts : List Expr} (readable : ∀ e ∈ elts, Readable true e) :
      Readable star (mk (.tuple elts) none)
  | starred {value : Expr} (readable : Readable false value) : Readable true (mk (.starred value) none)

theorem Readable.starrable {star : Bool} {e : Expr} (h : Readable star e) : Readable true e := by
  cases h with
  | name word free => exact .name word free
  | constant literal => exact .constant literal
  | attr value word => exact .attr value word
  | subscript value slice pair => exact .subscript value slice pair
  | binOp op left right => exact .binOp op left right
  | unaryOp op operand => exact .unaryOp op operand
  | boolOp op several readable => exact .boolOp op several readable
  | compare some length_eq left readable => exact .compare some length_eq left readable
  | call func args words values => exact .call func args words values
  | list readable => exact .list readable
  | tuple readable => exact .tuple readable
  | starred readable => exact .starred readable

def chars (e : Expr) : List Char := e.written.toList

def operandChars (e : Expr) : List Char :=
  if e.isOperation then '(' :: (e.chars ++ [')']) else e.chars

private theorem operandChars_eq (e : Expr) :
    (parenthesized e.isOperation e.written).toList = e.operandChars := by
  cases h : e.isOperation <;> simp [parenthesized, operandChars, chars, h]

private theorem writtenAll_eq (es : List Expr) : writtenAll es = es.map written := by
  induction es with
  | nil => rfl
  | cons e rest ih => rw [writtenAll, ih, List.map_cons]

private theorem separated_chars (es : List Expr) :
    (commaSeparated (writtenAll es)).toList = separated [' '] chars es := by
  have hchars : chars = String.toList ∘ written := rfl
  simp [commaSeparated, writtenAll_eq, String.toList_intercalate, separated, hchars]

private theorem map_operandChars (es : List Expr) :
    (writtenOperands es).map String.toList = es.map operandChars := by
  induction es with
  | nil => rfl
  | cons e rest ih => rw [writtenOperands, List.map_cons, operandChars_eq, ih, List.map_cons]

section Chars

variable {span : Option Span}

theorem chars_text (s : String) (kind : Option String) :
    chars (mk (.constant (.text s) kind) span) =
      '\'' :: (s.toList.flatMap singleQuotedChar ++ ['\'']) := by
  simp [chars, written, Literal.written, singleQuoted]

theorem chars_list (elts : List Expr) :
    chars (mk (.list elts) span) = '[' :: (separated [' '] chars elts ++ [']']) := by
  simp [chars, written, separated_chars]

theorem chars_tuple (elts : List Expr) :
    chars (mk (.tuple elts) span) =
      '(' :: (separated [' '] chars elts ++ ((if elts.length = 1 then [','] else []) ++ [')'])) := by
  have hcomma : (if elts.length = 1 then "," else "").toList = if elts.length = 1 then [','] else [] := by
    split <;> rfl
  simp only [chars, written, String.toList_append, separated_chars, hcomma]
  simp

variable (value : Expr)

private theorem chars_attr (name : String) :
    chars (mk (.attr value name) span) = value.operandChars ++ '.' :: name.toList := by
  simp [chars, written, operandChars_eq]

private theorem chars_subscript (slice : Expr) :
    chars (mk (.subscript value slice) span) =
      value.operandChars ++ '[' :: (separated [' '] chars slice.sliceItems ++ [']']) := by
  simp [chars, written_subscript_items, operandChars_eq, separated_chars]

theorem chars_starred : chars (mk (.starred value) span) = '*' :: value.chars := by
  simp [chars, written]

theorem chars_unaryOp (op : UnaryOperator) :
    chars (mk (.unaryOp op value) span) = op.symbol.toList ++ value.operandChars := by
  simp [chars, written, operandChars_eq]

end Chars

end Expr

abbrev Argument := Expr ⊕ Keyword

namespace Argument

def chars : Argument → List Char
  | .inl e => e.chars
  | .inr (.mk (some name) value) => name.toList ++ '=' :: value.chars
  | .inr (.mk none value) => '*' :: '*' :: value.chars

def all (args : List Expr) (keywords : List Keyword) : List Argument :=
  args.map .inl ++ keywords.map .inr

end Argument

namespace Expr

private theorem chars_call (func : Expr) (args : List Expr) (keywords : List Keyword)
    {span : Option Span} :
    chars (mk (.call func args keywords) span) =
      func.operandChars ++ '(' :: (separated [' '] Argument.chars (Argument.all args keywords) ++ [')']) := by
  have hkeywords : (writtenKeywords keywords).map String.toList =
      keywords.map (Argument.chars ∘ Sum.inr) := by
    induction keywords with
    | nil => rfl
    | cons k rest ih =>
      obtain ⟨_ | name, value⟩ := k
      · simp [writtenKeywords, Argument.chars, chars, ih]
      · simp [writtenKeywords, Argument.chars, chars, ih]
  have hargs : (writtenAll args ++ writtenKeywords keywords).map String.toList =
      (Argument.all args keywords).map Argument.chars := by
    rw [List.map_append, hkeywords, writtenAll_eq, List.map_map, Argument.all, List.map_append,
      List.map_map, List.map_map]
    rfl
  simp only [chars, written, String.toList_append, operandChars_eq, commaSeparated,
    String.toList_intercalate, hargs, separated]
  simp

end Expr

/-- What is written between two operands. -/
inductive Connective where
  | binary (op : BinaryOperator)
  | bool (op : BoolOperator)
  | comparison (op : CmpOperator)
  deriving DecidableEq

namespace Connective

def chars : Connective → List Char
  | binary op => op.symbol.toList
  | bool op => op.symbol.toList
  | comparison op => op.symbol.toList

def comparison? : Connective → Option CmpOperator
  | comparison op => some op
  | _ => none

def every : List Connective :=
  BinaryOperator.all.map binary ++ BoolOperator.all.map bool ++ CmpOperator.all.map comparison

private theorem mem_every (c : Connective) : c ∈ every := by
  cases c with
  | binary op => cases op <;> decide
  | bool op => cases op <;> decide
  | comparison op => cases op <;> decide

/-- No connective starts like another, except that `is not` starts with `is`. -/
theorem eq_of_starts {a b : Connective} (h : a.chars ++ [' '] <+: b.chars ++ [' ']) :
    a = b ∨ a = .comparison .same ∧ b = .comparison .notSame := by
  have hall : ∀ a ∈ every, ∀ b ∈ every, a.chars ++ [' '] <+: b.chars ++ [' '] →
      a = b ∨ a = .comparison .same ∧ b = .comparison .notSame := by
    decide +kernel
  exact hall a a.mem_every b b.mem_every h

/-- A connective ends where the next operand begins, since no operand starts with `not`. -/
theorem chars_inj {a b : Connective} {r s : List Char} (hr : ¬ "not ".toList <+: r)
    (hs : ¬ "not ".toList <+: s) (heq : a.chars ++ ' ' :: r = b.chars ++ ' ' :: s) : a = b ∧ r = s := by
  have hblank : ∀ (c : Connective) (l : List Char), c.chars ++ ' ' :: l = c.chars ++ [' '] ++ l := by simp
  rw [hblank a, hblank b] at heq
  have hsame : ∀ {r s : List Char}, ¬ "not ".toList <+: r →
      chars (.comparison .same) ++ [' '] ++ r ≠ chars (.comparison .notSame) ++ [' '] ++ s := by
    intro r s hr heq
    have hsplit : chars (.comparison .notSame) ++ [' '] =
        chars (.comparison .same) ++ [' '] ++ "not ".toList := by decide
    rw [hsplit, List.append_assoc _ "not ".toList] at heq
    exact hr ⟨s, (List.append_cancel_left heq).symm⟩
  have hab : a = b := by
    rcases List.prefix_or_prefix_of_prefix (List.prefix_append _ r) (heq ▸ List.prefix_append _ s) with
      hstart | hstart
    · rcases eq_of_starts hstart with hab | ⟨rfl, rfl⟩
      · exact hab
      · exact absurd heq (hsame hr)
    · rcases eq_of_starts hstart with hab | ⟨rfl, rfl⟩
      · exact hab.symm
      · exact absurd heq.symm (hsame hs)
  subst hab
  exact ⟨rfl, List.append_cancel_left heq⟩

end Connective

namespace Expr

/-- The first operand of a binary operation, a chain of comparisons or alternatives. Any other expression
is its own first operand. -/
def first : Expr → Expr
  | mk (.binOp left _ _) _ => left
  | mk (.boolOp _ (e :: _)) _ => e
  | mk (.compare left _ _) _ => left
  | e => e

/-- The other operands, each with the connective before it. -/
def others : Expr → List (Connective × Expr)
  | mk (.binOp _ op right) _ => [(.binary op, right)]
  | mk (.boolOp op (_ :: rest)) _ => rest.map (.bool op, ·)
  | mk (.compare _ ops comparators) _ => (ops.map .comparison).zip comparators
  | _ => []

def joined (e : Expr) : List (Connective × Expr) → Expr
  | [] => e
  | (.binary op, right) :: _ => mk (.binOp e op right) none
  | (.bool op, x) :: rest => mk (.boolOp op (e :: x :: rest.map Prod.snd)) none
  | (.comparison op, x) :: rest =>
    mk (.compare e (op :: rest.filterMap (·.1.comparison?)) (x :: rest.map Prod.snd)) none

/-- The sign in front of an expression: a star or a unary operator. -/
def sign : Expr → Option (Option UnaryOperator)
  | mk (.starred _) _ => some none
  | mk (.unaryOp op _) _ => some (some op)
  | _ => none

theorem Readable.joined_eq {star : Bool} {e : Expr} (h : Readable star e) (hsign : e.sign = none) :
    joined e.first e.others = e := by
  cases h with
  | boolOp op several readable =>
    rename_i values
    obtain _ | ⟨e, _ | ⟨x, rest⟩⟩ := values
    · simp at several
    · simp at several
    · simp [first, others, joined, Function.comp_def]
  | compare some length_eq left readable =>
    rename_i left ops comparators
    obtain _ | ⟨op, ops⟩ := ops
    · simp at some
    · obtain _ | ⟨x, rest⟩ := comparators
      · simp at length_eq
      · rw [List.length_cons, List.length_cons, Nat.add_right_cancel_iff] at length_eq
        have hops : ((ops.map Connective.comparison).zip rest).filterMap (·.1.comparison?) = ops := by
          calc ((ops.map Connective.comparison).zip rest).filterMap (·.1.comparison?)
            _ = (((ops.map Connective.comparison).zip rest).map Prod.fst).filterMap
                Connective.comparison? := by
              rw [List.filterMap_map]
              rfl
            _ = (ops.map Connective.comparison).filterMap Connective.comparison? := by
              rw [List.map_fst_zip (by simp [length_eq])]
            _ = ops := by
              rw [List.filterMap_map]
              exact List.filterMap_some
        have hrest : ((ops.map Connective.comparison).zip rest).map Prod.snd = rest :=
          List.map_snd_zip (by simp [length_eq])
        simp only [first, others, List.map_cons, List.zip_cons_cons, joined, hops, hrest]
  | starred readable => simp [sign] at hsign
  | unaryOp op operand => simp [sign] at hsign
  | _ => rfl

def otherChars (ps : List (Connective × Expr)) : List Char :=
  ps.flatMap fun p => ' ' :: (p.1.chars ++ ' ' :: p.2.operandChars)

private theorem writtenChain_chars (ops : List CmpOperator) (es : List Expr) :
    (writtenChain ops (writtenOperands es)).toList =
      otherChars ((ops.map Connective.comparison).zip es) := by
  induction ops generalizing es with
  | nil => cases es <;> rfl
  | cons op ops ih =>
    cases es with
    | nil => rfl
    | cons e es =>
      simp [writtenOperands, writtenChain, ih, otherChars, operandChars_eq, Connective.chars]

private theorem alternatives_chars (op : BoolOperator) (e : Expr) (es : List Expr) :
    ((" " ++ op.symbol ++ " ").intercalate (writtenOperands (e :: es))).toList =
      e.operandChars ++ otherChars (es.map (Connective.bool op, ·)) := by
  rw [String.toList_intercalate, map_operandChars, List.map_cons]
  induction es generalizing e with
  | nil => simp [otherChars]
  | cons x es ih =>
    rw [List.map_cons, List.intercalate_cons_cons, ih x]
    simp [otherChars, Connective.chars]

theorem Readable.chars_eq {star : Bool} {e : Expr} (h : Readable star e) (hsign : e.sign = none) :
    e.chars = e.first.operandChars ++ otherChars e.others := by
  cases h with
  | binOp op left right =>
    simp [chars, written, operandChars_eq, first, others, otherChars, Connective.chars]
  | boolOp op several readable =>
    rename_i values
    obtain _ | ⟨e, rest⟩ := values
    · simp at several
    · rw [chars, written, alternatives_chars]
      rfl
  | compare some length_eq left readable =>
    rw [chars, written, String.toList_append, operandChars_eq, writtenChain_chars]
    rfl
  | starred readable => simp [sign] at hsign
  | unaryOp op operand => simp [sign] at hsign
  | _ => simp [first, others, otherChars, operandChars, isOperation]

end Expr

def isEnd (c : Char) : Bool := c = ',' || c = ')' || c = ']'

def isBreak (c : Char) : Bool := isEnd c || c = ' '

/-- The characters that come after an atom: none that continues a name, and no sign of equality. -/
def isAfter (c : Char) : Bool := ! isNameChar c && c != '='

theorem isBreak_of_isEnd {c : Char} (h : isEnd c = true) : isBreak c = true := by
  simp [isBreak, h]

theorem isAfter_of_isBreak {c : Char} (h : isBreak c = true) : isAfter c = true := by
  simp only [isBreak, isEnd, Bool.or_eq_true, decide_eq_true_eq] at h
  rcases h with ((rfl | rfl) | rfl) | rfl <;> decide

theorem isIdentifier_spec {s : String} (h : isIdentifier s = true) :
    ∃ c r, s.toList = c :: r ∧ c.isDigit = false ∧ ∀ d ∈ s.toList, isNameChar d = true := by
  rw [isIdentifier, Bool.and_eq_true, List.all_eq_true] at h
  obtain ⟨hfirst, hall⟩ := h
  cases hs : s.toList with
  | nil => simp [hs] at hfirst
  | cons c r =>
    refine ⟨c, r, rfl, ?_, hs ▸ hall⟩
    simp only [hs, List.head?_cons, Option.any_some, Bool.or_eq_true, decide_eq_true_eq] at hfirst
    rcases hfirst with hc | rfl
    · simp only [Char.isAlpha, Char.isUpper, Char.isLower, Char.isDigit, Bool.or_eq_true,
        Bool.and_eq_true, decide_eq_true_eq, Bool.and_eq_false_iff, decide_eq_false_iff_not] at hc ⊢
      grind
    · decide

def isFirst (c : Char) : Bool := isNameChar c || c = '\'' || c = '[' || c = '('

/-- How an operand starts: with a mark or with a word that is not `not` and no name of an argument. -/
structure OpensOperand (l : List Char) : Prop where
  first : ∃ c r, l = c :: r ∧ isFirst c = true
  word : l.takeWhile isNameChar ≠ "not".toList
  after : StartsIn isAfter (l.dropWhile isNameChar)

namespace OpensOperand

variable {w t : List Char}

private theorem ofWord (hne : w ≠ []) (hnot : w ≠ "not".toList) (hw : ∀ c ∈ w, isNameChar c = true)
    (ht : StartsIn isAfter t) : OpensOperand (w ++ t) := by
  have htake : t.takeWhile isNameChar = [] ∧ t.dropWhile isNameChar = t := by
    cases t with
    | nil => simp
    | cons c t =>
      have hc : isAfter c = true := ht c rfl
      have hname : isNameChar c = false := by
        simp only [isAfter, Bool.and_eq_true, Bool.not_eq_true'] at hc
        exact hc.1
      simp [hname]
  refine ⟨?_, ?_, ?_⟩
  · obtain ⟨c, r, rfl⟩ := List.exists_cons_of_ne_nil hne
    exact ⟨c, r ++ t, rfl, by simp [isFirst, hw c (by simp)]⟩
  · rwa [List.takeWhile_append_of_pos hw, htake.1, List.append_nil]
  · rwa [List.dropWhile_append_of_pos hw, htake.2]

private theorem ofMark {c : Char} (hc : isFirst c = true) (hname : isNameChar c = false) :
    OpensOperand (c :: t) := by
  have hafter : isAfter c = true := by
    rw [isAfter, hname, Bool.not_false, Bool.true_and, bne_iff_ne]
    rintro rfl
    exact absurd hc (by decide)
  refine ⟨⟨c, t, rfl, hc⟩, ?_, ?_⟩
  · simp [List.takeWhile, hname]
  · simpa [List.dropWhile, hname] using StartsIn.cons hafter t

end OpensOperand

private theorem toString_natCast (n : Nat) : toString (n : Int) = n.repr := by
  rw [Int.toString_eq_repr, Int.repr_eq_if]
  simp

namespace Expr

/-- Names and literals other than texts, which are written as one word. -/
def isWord : Expr → Bool
  | mk (.name _) _ => true
  | mk (.constant (.text _) _) _ => false
  | mk (.constant _ _) _ => true
  | _ => false

def ofWord (s : String) : Expr :=
  if s = "None" then mk (.constant .none none) none
  else if s = "True" then mk (.constant (.bool true) none) none
  else if s = "False" then mk (.constant (.bool false) none) none
  else if s.toList.head?.any Char.isDigit then
    let n := s.toInt?.getD 0
    mk (.constant (if n < 2 ^ 63 then .int n else .bigInt s) none) none
  else mk (.name s) none

private theorem ofWord_repr (n : Nat) : ofWord n.repr =
    mk (.constant (if n < 2 ^ 63 then .int n else .bigInt n.repr) none) none := by
  obtain ⟨c, r, hcr⟩ : ∃ c r, n.repr.toList = c :: r := List.exists_cons_of_ne_nil (by simp)
  have hdigit : c.isDigit = true := isDigit_of_mem_repr (k := n) (by simp [hcr])
  have hne : ∀ {s : String}, s.toList.head?.any Char.isDigit = false → n.repr ≠ s := by
    rintro _ hs rfl
    simp [hcr, hdigit] at hs
  have hint : n.repr.toInt? = some (n : Int) := by
    rw [← toString_natCast]
    simp
  simp only [ofWord, hne (s := "None") (by decide), hne (s := "True") (by decide),
    hne (s := "False") (by decide), hcr, hdigit, hint, if_false, List.head?_cons, Option.any_some, if_true,
    Option.getD_some]
  norm_cast

structure WordSpec (e : Expr) : Prop where
  ne_nil : e.chars ≠ []
  ne_not : e.chars ≠ "not".toList
  isNameChar : ∀ c ∈ e.chars, isNameChar c = true
  ofWord_eq : ofWord e.written = e

private theorem wordSpec_repr (n : Nat) {l : Literal} (hwritten : l.written = n.repr)
    (heq : (if n < 2 ^ 63 then .int n else .bigInt n.repr) = l) : WordSpec (mk (.constant l none) none) := by
  have hchars : (mk (.constant l none) none).chars = n.repr.toList := congrArg String.toList hwritten
  refine ⟨?_, ?_, ?_, ?_⟩
  · simp [hchars]
  · intro h
    have hdigit : ('n' : Char).isDigit = true := isDigit_of_mem_repr (k := n) (by simp [← hchars, h])
    exact absurd hdigit (by decide)
  · intro c hc
    rw [hchars] at hc
    simp [RegionIR.isNameChar, Char.isAlphanum, isDigit_of_mem_repr hc]
  · rw [written, hwritten, ofWord_repr, heq]

theorem Readable.wordSpec {star : Bool} {e : Expr} (h : Readable star e) (hword : e.isWord = true) :
    WordSpec e := by
  cases h with
  | @name _ id word free =>
    obtain ⟨c, r, hcr, hdigit, hall⟩ := isIdentifier_spec word
    have hreserved : ∀ s ∈ reservedWords, id ≠ s := fun s hs h => free (h ▸ hs)
    have hchars : (mk (.name id) none).chars = id.toList := rfl
    refine ⟨by simp [hchars, hcr], fun hnot => ?_, by rwa [hchars], ?_⟩
    · exact hreserved "not" (by decide) (String.toList_injective hnot)
    · simp [written, ofWord, hreserved "None" (by decide), hreserved "True" (by decide),
        hreserved "False" (by decide), hcr, hdigit]
  | constant literal =>
    cases literal with
    | none => exact ⟨by decide, by decide, List.all_eq_true.1 rfl, rfl⟩
    | bool b =>
      cases b with
      | false => exact ⟨by decide, by decide, List.all_eq_true.1 rfl, rfl⟩
      | true => exact ⟨by decide, by decide, List.all_eq_true.1 rfl, rfl⟩
    | @int n fits => exact wordSpec_repr n (toString_natCast n) (if_pos fits)
    | @bigInt n large => exact wordSpec_repr n rfl (if_neg (by omega))
    | text s => simp [isWord] at hword
  | _ => simp [isWord] at hword

/-- Whether an operand has no trailer. Operations stand in brackets there. -/
def isAtom : Expr → Bool
  | mk (.attr ..) _ | mk (.subscript ..) _ | mk (.call ..) _ => false
  | _ => true

def mark : Expr → Option Char
  | mk (.constant (.text _) _) _ => some '\''
  | mk (.list _) _ => some '['
  | mk (.name _) _ => none
  | mk (.constant _ _) _ => none
  | _ => some '('

end Expr

inductive Trailer where
  | attr (name : String)
  | slice (e : Expr)
  | call (args : List Expr) (keywords : List Keyword)

def Expr.extended (e : Expr) : Trailer → Expr
  | .attr name => .mk (.attr e name) none
  | .slice s => .mk (.subscript e s) none
  | .call args keywords => .mk (.call e args keywords) none

namespace Trailer

def chars : Trailer → List Char
  | attr name => '.' :: name.toList
  | slice e => '[' :: (separated [' '] Expr.chars e.sliceItems ++ [']'])
  | call args keywords => '(' :: (separated [' '] Argument.chars (Argument.all args keywords) ++ [')'])

def Readable : Trailer → Prop
  | attr name => isIdentifier name = true
  | slice e => e.Readable false ∧ ∀ elts, e.form = .tuple elts → 2 ≤ elts.length
  | call args keywords => (∀ e ∈ args, e.Readable true) ∧
      (∀ k ∈ keywords, ∀ name ∈ k.arg, isIdentifier name = true) ∧ ∀ k ∈ keywords, k.value.Readable false

theorem lead (t : Trailer) : ∃ c r, t.chars = c :: r ∧ isBreak c = false ∧ isAfter c = true := by
  cases t with
  | attr name => exact ⟨_, _, rfl, by decide, by decide⟩
  | slice e => exact ⟨_, _, rfl, by decide, by decide⟩
  | call args keywords => exact ⟨_, _, rfl, by decide, by decide⟩

def charsAll (ts : List Trailer) : List Char := ts.flatMap chars

theorem charsAll_starts (ts : List Trailer) {r : List Char} (hr : StartsIn isAfter r) :
    StartsIn isAfter (charsAll ts ++ r) := by
  cases ts with
  | nil => exact hr
  | cons t ts =>
    obtain ⟨c, l, hc, _, hafter⟩ := t.lead
    simpa [charsAll, hc] using StartsIn.cons hafter _

end Trailer

namespace Expr

def extendedAll (e : Expr) (ts : List Trailer) : Expr := ts.foldl extended e

theorem operandChars_extended (e : Expr) (t : Trailer) :
    (e.extended t).operandChars = e.operandChars ++ t.chars := by
  cases t with
  | attr name => exact chars_attr e name
  | slice s => exact chars_subscript e s
  | call args keywords => exact chars_call e args keywords

theorem operandChars_extendedAll (e : Expr) (ts : List Trailer) :
    (e.extendedAll ts).operandChars = e.operandChars ++ Trailer.charsAll ts := by
  induction ts generalizing e with
  | nil => simp [extendedAll, Trailer.charsAll]
  | cons t ts ih =>
    have hrest := ih (e.extended t)
    rw [operandChars_extended] at hrest
    simpa [extendedAll, Trailer.charsAll] using hrest

/-- An operand is an atom with trailers. -/
def HasSpine (e : Expr) : Prop :=
  ∃ (atom : Expr) (ts : List Trailer), atom.Readable false ∧ atom.isAtom = true ∧
    (∀ t ∈ ts, t.Readable) ∧ e = atom.extendedAll ts

private theorem HasSpine.extended {e : Expr} (h : e.HasSpine) {t : Trailer} (ht : t.Readable) :
    (e.extended t).HasSpine := by
  obtain ⟨atom, ts, hatom, hflag, hts, rfl⟩ := h
  refine ⟨atom, ts ++ [t], hatom, hflag, ?_, by simp [extendedAll]⟩
  simp only [List.mem_append, List.mem_singleton]
  rintro u (hu | rfl)
  · exact hts u hu
  · exact ht

theorem Readable.spine {star : Bool} {e : Expr} (h : Readable star e) (hstar : star = false) :
    e.HasSpine := by
  have hself : ∀ {e : Expr}, e.Readable false → e.isAtom = true → e.HasSpine :=
    fun he hatom => ⟨_, [], he, hatom, by simp, rfl⟩
  induction h with
  | @attr _ _ name _ word ih => exact (ih rfl).extended (t := .attr name) word
  | @subscript _ _ slice _ readable pair ih => exact (ih rfl).extended (t := .slice slice) ⟨readable, pair⟩
  | @call _ _ args keywords _ readable words values ih =>
    exact (ih rfl).extended (t := .call args keywords) ⟨readable, words, values⟩
  | name word free => exact hself (.name word free) rfl
  | constant literal => exact hself (.constant literal) rfl
  | binOp op left right => exact hself (.binOp op left right) rfl
  | unaryOp op operand => exact hself (.unaryOp op operand) rfl
  | boolOp op several readable => exact hself (.boolOp op several readable) rfl
  | compare some length_eq left readable => exact hself (.compare some length_eq left readable) rfl
  | list readable => exact hself (.list readable) rfl
  | tuple readable => exact hself (.tuple readable) rfl
  | starred readable => cases hstar

theorem Readable.atom_cases {e : Expr} (h : Readable false e) (hatom : e.isAtom = true) :
    e.isWord = true ∧ e.mark = none ∧ e.operandChars = e.chars ∨
      ∃ c l, e.mark = some c ∧ e.operandChars = c :: l ∧ isFirst c = true ∧ isNameChar c = false := by
  have hgroup : ∀ e : Expr, e.isOperation = true → e.operandChars = '(' :: (e.chars ++ [')']) :=
    fun e he => if_pos he
  cases h with
  | name word free => exact .inl ⟨rfl, rfl, rfl⟩
  | constant literal =>
    cases literal with
    | text s => exact .inr ⟨'\'', _, rfl, chars_text s none, by decide, by decide⟩
    | none => exact .inl ⟨rfl, rfl, rfl⟩
    | bool b => exact .inl ⟨rfl, rfl, rfl⟩
    | int fits => exact .inl ⟨rfl, rfl, rfl⟩
    | bigInt large => exact .inl ⟨rfl, rfl, rfl⟩
  | list readable => exact .inr ⟨'[', _, rfl, chars_list _, by decide, by decide⟩
  | tuple readable => exact .inr ⟨'(', _, rfl, chars_tuple _, by decide, by decide⟩
  | attr value word => simp [isAtom] at hatom
  | subscript value slice pair => simp [isAtom] at hatom
  | call func args words values => simp [isAtom] at hatom
  | _ => exact .inr ⟨'(', _, rfl, hgroup _ rfl, by decide, by decide⟩

theorem Readable.opens {e : Expr} (h : Readable false e) {t : List Char} (ht : StartsIn isAfter t) :
    OpensOperand (e.operandChars ++ t) := by
  obtain ⟨atom, ts, hatom, hflag, _, rfl⟩ := h.spine rfl
  rw [operandChars_extendedAll, List.append_assoc]
  have hafter := Trailer.charsAll_starts ts ht
  rcases hatom.atom_cases hflag with ⟨hword, _, hchars⟩ | ⟨c, l, _, hchars, hfirst, hname⟩
  · have spec := hatom.wordSpec hword
    rw [hchars]
    exact .ofWord spec.ne_nil spec.ne_not spec.isNameChar hafter
  · rw [hchars]
    exact .ofMark hfirst hname

end Expr

end RegionIR
