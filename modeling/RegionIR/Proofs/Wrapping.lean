import Mathlib
import RegionIR.Compile
/-!
# Wrapped slices

Older parsers put the slice of a subscript in an index node. `SourceUnit.wrap` does this to any chosen
subscripts of a tree. It changes no type, no name and no kind. It does change texts: the slice of a
subscript is written without its brackets if it is a tuple, but not if it is a wrapped one.
-/
namespace RegionIR

/-- Which subscripts of a tree are chosen, by the numbers of the parts on the way to them. The new node
of a chosen one gets the given place. -/
abbrev Choice := List Nat → Option (Option Span)

namespace Choice

def below (c : Choice) (part : Nat) : Choice := fun path => c (part :: path)

def each {α : Type} (f : Choice → α → α) (c : Choice) : List α → List α
  | [] => []
  | a :: rest => f (c.below 0) a :: each f (c.below 1) rest

def only (path : List Nat) : Choice := fun other => if other = path then some none else none

end Choice

/-- Puts an expression in an index node, if there is a place for one. -/
def Expr.indexed (e : Expr) : Option (Option Span) → Expr
  | some span => .mk (.index e) span
  | none => e

namespace Expr

mutual

/-- Wraps the slices of the chosen subscripts. -/
def wrap (c : Choice) : Expr → Expr
  | mk form span => mk (wrapForm c form) span
termination_by structural e => e

def wrapForm (c : Choice) : ExprForm → ExprForm
  | .boolOp op values => .boolOp op (wrapAll c values)
  | .binOp left op right => .binOp (wrap (c.below 0) left) op (wrap (c.below 1) right)
  | .unaryOp op operand => .unaryOp op (wrap c operand)
  | .compare left ops comparators =>
    .compare (wrap (c.below 0) left) ops (wrapAll (c.below 1) comparators)
  | .call func args keywords =>
    .call (wrap (c.below 0) func) (wrapAll (c.below 1) args) (wrapKeywords (c.below 2) keywords)
  | .constant value kind => .constant value kind
  | .attr value name => .attr (wrap c value) name
  | .subscript value slice =>
    .subscript (wrap (c.below 0) value) ((wrap (c.below 1) slice).indexed (c []))
  | .starred value => .starred (wrap c value)
  | .name id => .name id
  | .list elts => .list (wrapAll c elts)
  | .tuple elts => .tuple (wrapAll c elts)
  | .index value => .index (wrap c value)
  | .bare kind => .bare kind
termination_by structural f => f

def wrapAll (c : Choice) : List Expr → List Expr
  | [] => []
  | e :: rest => wrap (c.below 0) e :: wrapAll (c.below 1) rest
termination_by structural es => es

def wrapKeywords (c : Choice) : List Keyword → List Keyword
  | [] => []
  | .mk arg value :: rest => .mk arg (wrap (c.below 0) value) :: wrapKeywords (c.below 1) rest
termination_by structural ks => ks

end

end Expr

def Param.wrap (c : Choice) (p : Param) : Param := { p with annot := p.annot.map (·.wrap c) }

def Params.wrap (c : Choice) (p : Params) : Params where
  posOnly := (c.below 0).each Param.wrap p.posOnly
  plain := (c.below 1).each Param.wrap p.plain
  variadic := p.variadic.map (·.wrap (c.below 2))
  keywordOnly := (c.below 3).each Param.wrap p.keywordOnly
  keywordDefaults := (c.below 4).each (fun c => Option.map (·.wrap c)) p.keywordDefaults
  keywordVariadic := p.keywordVariadic.map (·.wrap (c.below 5))
  defaults := Expr.wrapAll (c.below 6) p.defaults

namespace Stmt

mutual

def wrap (c : Choice) : Stmt → Stmt
  | mk form span => mk (wrapForm c form) span
termination_by structural s => s

def wrapForm (c : Choice) : StmtForm → StmtForm
  | .functionDef name params body decorators returns =>
    .functionDef name (params.wrap (c.below 0)) (wrapAll (c.below 1) body)
      (Expr.wrapAll (c.below 2) decorators) (returns.map (·.wrap (c.below 3)))
  | .classDef name bases keywords body decorators =>
    .classDef name (Expr.wrapAll (c.below 0) bases) (Expr.wrapKeywords (c.below 1) keywords)
      (wrapAll (c.below 2) body) (Expr.wrapAll (c.below 3) decorators)
  | .ret value => .ret (value.map (·.wrap c))
  | .assign targets value => .assign (Expr.wrapAll (c.below 0) targets) (value.wrap (c.below 1))
  | .augAssign target op value => .augAssign (target.wrap (c.below 0)) op (value.wrap (c.below 1))
  | .annAssign target annot value simple =>
    .annAssign (target.wrap (c.below 0)) (annot.wrap (c.below 1)) (value.map (·.wrap (c.below 2))) simple
  | .forIn target iter body orelse =>
    .forIn (target.wrap (c.below 0)) (iter.wrap (c.below 1)) (wrapAll (c.below 2) body)
      (wrapAll (c.below 3) orelse)
  | .whileDo test body orelse =>
    .whileDo (test.wrap (c.below 0)) (wrapAll (c.below 1) body) (wrapAll (c.below 2) orelse)
  | .ifElse test body orelse =>
    .ifElse (test.wrap (c.below 0)) (wrapAll (c.below 1) body) (wrapAll (c.below 2) orelse)
  | .expr value => .expr (value.wrap c)
  | .pass => .pass
  | .breakLoop => .breakLoop
  | .continueLoop => .continueLoop
  | .bare kind => .bare kind
termination_by structural f => f

def wrapAll (c : Choice) : List Stmt → List Stmt
  | [] => []
  | s :: rest => wrap (c.below 0) s :: wrapAll (c.below 1) rest
termination_by structural ss => ss

end

end Stmt

/-- The unit with the slices of the chosen subscripts wrapped. -/
def SourceUnit.wrap (c : Choice) : SourceUnit → SourceUnit
  | module body => module (Stmt.wrapAll c body)
  | other => other

namespace Expr

@[simp] theorem typeArgs_indexed (e : Expr) (place : Option (Option Span)) :
    typeArgs (e.indexed place) = typeArgs e := by
  cases place with
  | none => rfl
  | some span => rw [indexed, typeArgs]

mutual

theorem dotted?_wrap (c : Choice) : (e : Expr) → (e.wrap c).dotted? = e.dotted?
  | mk (.attr value name) _ => by
    rw [wrap, wrapForm, dotted?, dotted?, dotted?_wrap c value]
  | mk (.name _) _ | mk (.boolOp ..) _ | mk (.binOp ..) _ | mk (.unaryOp ..) _ | mk (.compare ..) _
  | mk (.call ..) _ | mk (.constant ..) _ | mk (.subscript ..) _ | mk (.starred _) _ | mk (.list _) _
  | mk (.tuple _) _ | mk (.index _) _ | mk (.bare _) _ => rfl

theorem annotatedTy_wrap (c : Choice) : (e : Expr) → (e.wrap c).annotatedTy = e.annotatedTy
  | mk form _ => by rw [wrap, annotatedTy, annotatedTy, formTy_wrap c form]

theorem formTy_wrap (c : Choice) : (f : ExprForm) → formTy (wrapForm c f) = formTy f
  | .subscript value slice => by
    rw [wrapForm, formTy, formTy, dotted?_wrap (c.below 0) value, typeArgs_indexed,
      typeArgs_wrap (c.below 1) slice]
  | .attr value name => by rw [wrapForm, formTy, formTy, dotted?_wrap c value]
  | .name _ | .boolOp .. | .binOp .. | .unaryOp .. | .compare .. | .call .. | .constant ..
  | .starred _ | .list _ | .tuple _ | .index _ | .bare _ => rfl

theorem typeArgs_wrap (c : Choice) : (e : Expr) → typeArgs (e.wrap c) = typeArgs e
  | mk (.index value) _ => by rw [wrap, wrapForm, typeArgs, typeArgs, typeArgs_wrap c value]
  | mk (.tuple elts) _ => by rw [wrap, wrapForm, typeArgs, typeArgs, annotatedTys_wrap c elts]
  | mk (.subscript value slice) _ => congrArg (fun ty => [ty]) (formTy_wrap c (.subscript value slice))
  | mk (.attr value name) _ => congrArg (fun ty => [ty]) (formTy_wrap c (.attr value name))
  | mk (.name _) _ | mk (.boolOp ..) _ | mk (.binOp ..) _ | mk (.unaryOp ..) _ | mk (.compare ..) _
  | mk (.call ..) _ | mk (.constant ..) _ | mk (.starred _) _ | mk (.list _) _ | mk (.bare _) _ => rfl

theorem annotatedTys_wrap (c : Choice) : (es : List Expr) → annotatedTys (wrapAll c es) = annotatedTys es
  | [] => rfl
  | e :: rest => by
    rw [wrapAll, annotatedTys, annotatedTys, annotatedTy_wrap (c.below 0) e,
      annotatedTys_wrap (c.below 1) rest]

end

variable (c : Choice) (e : Expr) (es : List Expr)

@[simp] theorem span_wrap : (e.wrap c).span = e.span := by
  obtain ⟨form, span⟩ := e
  rfl

@[simp] theorem kind_wrap : (e.wrap c).kind = e.kind := by
  obtain ⟨form, span⟩ := e
  cases form <;> rfl

@[simp] theorem name?_wrap : (e.wrap c).name? = e.name? := by
  obtain ⟨form, span⟩ := e
  cases form <;> rfl

@[simp] theorem isStarred_wrap : (e.wrap c).isStarred = e.isStarred := by
  obtain ⟨form, span⟩ := e
  cases form <;> rfl

@[simp] theorem isOperation_wrap : (e.wrap c).isOperation = e.isOperation := by
  obtain ⟨form, span⟩ := e
  cases form <;> rfl

@[simp] theorem length_wrapAll : (wrapAll c es).length = es.length := by
  induction es generalizing c with
  | nil => rfl
  | cons e rest ih => simp [wrapAll, ih]

end Expr

@[simp] theorem Expr.isEmpty_wrapAll (c : Choice) (es : List Expr) :
    (wrapAll c es).isEmpty = es.isEmpty := by
  cases es <;> rfl

@[simp] theorem Stmt.isEmpty_wrapAll (c : Choice) (stmts : List Stmt) :
    (wrapAll c stmts).isEmpty = stmts.isEmpty := by
  cases stmts <;> rfl

@[simp] theorem Choice.isEmpty_each {α : Type} (f : Choice → α → α) (c : Choice) (as : List α) :
    (c.each f as).isEmpty = as.isEmpty := by
  cases as <;> rfl

theorem annotatedTy?_wrap (c : Choice) (annot : Option Expr) :
    annotatedTy? (annot.map (·.wrap c)) = annotatedTy? annot := by
  cases annot with
  | none => rfl
  | some e => exact e.annotatedTy_wrap c

theorem Params.refused?_wrap (c : Choice) (p : Params) : (p.wrap c).refused? = p.refused? := by
  have hany (c : Choice) (es : List (Option Expr)) :
      (c.each (fun c => Option.map (·.wrap c)) es).any Option.isSome = es.any Option.isSome := by
    induction es generalizing c with
    | nil => rfl
    | cons e rest ih => simp [Choice.each, ih]
  simp only [refused?, wrap, Choice.isEmpty_each, Expr.isEmpty_wrapAll, hany]
  cases p.variadic <;> cases p.keywordVariadic <;> rfl

/-- Something that holds text: how much of it there is, and what is left without brackets and commas. -/
class Textual (α : Type) where
  size : α → Nat
  bare : α → α

instance : Textual String where
  size := String.length
  bare s := String.ofList (s.toList.filter (· ∉ ['(', ')', ',']))

instance {α : Type} [Textual α] : Textual (List α) where
  size as := (as.map Textual.size).sum
  bare := List.map Textual.bare

/-- The second has at least `k` more brackets and commas than the first, and is otherwise the same. -/
structure Loosened {α : Type} [Textual α] (k : Nat) (a a' : α) : Prop where
  bare : Textual.bare a' = Textual.bare a
  size : Textual.size a + k ≤ Textual.size a'
  same : k = 0 → a' = a

inductive LoosenedEach {α : Type} [Textual α] : List Nat → List α → List α → Prop
  | nil : LoosenedEach [] [] []
  | cons {k : Nat} {ks : List Nat} {a a' : α} {as as' : List α} (head : Loosened k a a')
      (tail : LoosenedEach ks as as') : LoosenedEach (k :: ks) (a :: as) (a' :: as')

theorem Loosened.refl {α : Type} [Textual α] (a : α) : Loosened 0 a a := ⟨rfl, le_rfl, fun _ => rfl⟩

theorem Loosened.append {k l : Nat} {s s' t t' : String} (first : Loosened k s s')
    (second : Loosened l t t') : Loosened (k + l) (s ++ t) (s' ++ t') := by
  constructor
  · have hfirst := first.bare
    have hsecond := second.bare
    simp only [Textual.bare] at hfirst hsecond ⊢
    rw [String.toList_append, String.toList_append, List.filter_append, List.filter_append,
      String.ofList_append, String.ofList_append, hfirst, hsecond]
  · have hfirst := first.size
    have hsecond := second.size
    simp only [Textual.size, String.length_append] at hfirst hsecond ⊢
    omega
  · intro h
    rw [first.same (by omega), second.same (by omega)]

theorem Loosened.after {k : Nat} {t t' : String} (h : Loosened k t t') (s : String) :
    Loosened k (s ++ t) (s ++ t') := by
  rw [← Nat.zero_add k]
  exact (Loosened.refl s).append h

private theorem Loosened.before {k : Nat} {s s' : String} (h : Loosened k s s') (t : String) :
    Loosened k (s ++ t) (s' ++ t) := h.append (.refl t)

private theorem Loosened.parenthesized {k : Nat} {s s' : String} (h : Loosened k s s') (grouped : Bool) :
    Loosened k (parenthesized grouped s) (parenthesized grouped s') := by
  cases grouped with
  | false => exact h
  | true => exact (h.after "(").before ")"

namespace LoosenedEach

variable {α : Type} [Textual α] {ks ls : List Nat}

theorem append {as as' bs bs' : List α} (first : LoosenedEach ks as as') (second : LoosenedEach ls bs bs') :
    LoosenedEach (ks ++ ls) (as ++ bs) (as' ++ bs') := by
  induction first with
  | nil => exact second
  | cons head _ ih => exact .cons head ih

theorem loosened {as as' : List α} (h : LoosenedEach ks as as') : Loosened ks.sum as as' := by
  induction h with
  | nil => exact .refl []
  | cons head _ ih =>
    rw [List.sum_cons]
    refine ⟨congrArg₂ List.cons head.bare ih.bare, ?_, ?_⟩
    · have hhead := head.size
      have htail := ih.size
      simp only [Textual.size, List.map_cons, List.sum_cons] at hhead htail ⊢
      omega
    · intro h
      rw [head.same (by omega), ih.same (by omega)]

variable {ss ss' : List String}

private theorem intercalate (h : LoosenedEach ks ss ss') (sep : String) :
    Loosened ks.sum (sep.intercalate ss) (sep.intercalate ss') := by
  induction h with
  | nil => exact .refl _
  | cons head tail ih =>
    rw [List.sum_cons]
    cases tail with
    | nil =>
      rw [String.intercalate_singleton, String.intercalate_singleton]
      exact head
    | cons next rest =>
      rw [String.intercalate_cons_cons, String.intercalate_cons_cons]
      exact (head.before sep).append ih

private theorem writtenChain (h : LoosenedEach ks ss ss') (ops : List CmpOperator) :
    Loosened (ks.take ops.length).sum (writtenChain ops ss) (writtenChain ops ss') := by
  induction h generalizing ops with
  | nil => cases ops <;> exact .refl ""
  | cons head _ ih =>
    cases ops with
    | nil => exact .refl ""
    | cons op ops =>
      rw [List.length_cons, List.take_succ_cons, List.sum_cons, RegionIR.writtenChain,
        RegionIR.writtenChain]
      exact (head.after _).append (ih ops)

end LoosenedEach

def Expr.isTuple : Expr → Bool
  | mk (.tuple _) _ => true
  | _ => false

namespace Expr

mutual

/-- The number of chosen subscripts whose slice is a tuple, as far as they are written. -/
def chosenTuples (c : Choice) : Expr → Nat
  | mk form _ =>
    match form with
    | .boolOp _ values => (chosenTuplesAll c values).sum
    | .binOp left _ right => chosenTuples (c.below 0) left + chosenTuples (c.below 1) right
    | .unaryOp _ operand => chosenTuples c operand
    | .compare left ops comparators =>
      chosenTuples (c.below 0) left + ((chosenTuplesAll (c.below 1) comparators).take ops.length).sum
    | .call func args keywords =>
      chosenTuples (c.below 0) func +
        (chosenTuplesAll (c.below 1) args ++ chosenTuplesKeywords (c.below 2) keywords).sum
    | .attr value _ => chosenTuples c value
    | .subscript value slice =>
      chosenTuples (c.below 0) value +
        (chosenTuples (c.below 1) slice + if slice.isTuple ∧ (c []).isSome then 1 else 0)
    | .starred value => chosenTuples c value
    | .list elts => (chosenTuplesAll c elts).sum
    | .tuple elts => (chosenTuplesAll c elts).sum
    | .index value => chosenTuples c value
    | .constant .. | .name _ | .bare _ => 0
termination_by structural e => e

def chosenTuplesAll (c : Choice) : List Expr → List Nat
  | [] => []
  | e :: rest => chosenTuples (c.below 0) e :: chosenTuplesAll (c.below 1) rest
termination_by structural es => es

def chosenTuplesKeywords (c : Choice) : List Keyword → List Nat
  | [] => []
  | .mk _ value :: rest => chosenTuples (c.below 0) value :: chosenTuplesKeywords (c.below 1) rest
termination_by structural ks => ks

end

def writtenSlice : Expr → String
  | mk (.tuple elts) _ => commaSeparated (writtenAll elts)
  | e => e.written

private theorem written_subscript (value slice : Expr) (span : Option Span) :
    (mk (.subscript value slice) span).written =
      parenthesized value.isOperation value.written ++ "[" ++ slice.writtenSlice ++ "]" := by
  obtain ⟨form, _⟩ := slice
  cases form <;> rfl

private theorem loosened_operand {k : Nat} {c : Choice} {e : Expr}
    (h : Loosened k e.written (e.wrap c).written) :
    Loosened k (parenthesized e.isOperation e.written)
      (parenthesized (e.wrap c).isOperation (e.wrap c).written) := by
  rw [isOperation_wrap]
  exact h.parenthesized e.isOperation

private theorem loosened_written_tuple {k : Nat} {s s' : String} (h : Loosened k s s') (count : Nat) :
    Loosened (k + 1) s ("(" ++ s' ++ (if count = 1 then "," else "") ++ ")") := by
  constructor
  · have hbare := h.bare
    simp only [Textual.bare] at hbare ⊢
    rw [← hbare]
    split <;> simp
  · have hsize := h.size
    simp only [Textual.size, String.length_append, show ("(" : String).length = 1 from rfl] at hsize ⊢
    omega
  · intro hk
    omega

/-- A slice that is wrapped keeps the brackets of a tuple. -/
theorem loosened_indexed {k : Nat} (c : Choice) (slice : Expr) (place : Option (Option Span))
    (h : Loosened k slice.writtenSlice (slice.wrap c).writtenSlice) :
    Loosened (k + if slice.isTuple ∧ place.isSome then 1 else 0) slice.writtenSlice
      ((slice.wrap c).indexed place).writtenSlice := by
  obtain ⟨form, at'⟩ := slice
  cases place with
  | none => simpa [indexed] using h
  | some span =>
    cases form with
    | tuple elts => exact loosened_written_tuple h _
    | _ => exact h

mutual

/-- The text of an expression gets longer by the brackets of its chosen tuples, if it has any. -/
theorem loosened_wrap (c : Choice) : (e : Expr) →
    Loosened (e.chosenTuples c) e.written (e.wrap c).written ∧
      Loosened (e.chosenTuples c) e.writtenSlice (e.wrap c).writtenSlice
  | mk (.boolOp op values) _ => by
    have h := (loosenedEach_operands c values).intercalate (" " ++ op.symbol ++ " ")
    exact ⟨h, h⟩
  | mk (.binOp left op right) _ => by
    have hleft := loosened_operand (loosened_wrap (c.below 0) left).1
    have hright := loosened_operand (loosened_wrap (c.below 1) right).1
    have h := (((hleft.before " ").before op.symbol).before " ").append hright
    exact ⟨h, h⟩
  | mk (.unaryOp op operand) _ => by
    have h := (loosened_operand (loosened_wrap c operand).1).after op.symbol
    exact ⟨h, h⟩
  | mk (.compare left ops comparators) _ => by
    have hleft := loosened_operand (loosened_wrap (c.below 0) left).1
    have h := hleft.append ((loosenedEach_operands (c.below 1) comparators).writtenChain ops)
    exact ⟨h, h⟩
  | mk (.call func args keywords) _ => by
    have hfunc := loosened_operand (loosened_wrap (c.below 0) func).1
    have hargs := (loosenedEach_wrapAll (c.below 1) args).append
      (loosenedEach_keywords (c.below 2) keywords)
    have h := ((hfunc.before "(").append (hargs.intercalate ", ")).before ")"
    exact ⟨h, h⟩
  | mk (.constant value kind) _ => ⟨.refl _, .refl _⟩
  | mk (.attr value name) _ => by
    have h := ((loosened_operand (loosened_wrap c value).1).before ".").before name
    exact ⟨h, h⟩
  | mk (.subscript value slice) span => by
    have hvalue := loosened_operand (loosened_wrap (c.below 0) value).1
    have hslice := loosened_indexed (c.below 1) slice (c []) (loosened_wrap (c.below 1) slice).2
    have h := ((hvalue.before "[").append hslice).before "]"
    rw [← written_subscript value slice span, ← written_subscript _ _ span] at h
    exact ⟨h, h⟩
  | mk (.starred value) _ => by
    have h := (loosened_wrap c value).1.after "*"
    exact ⟨h, h⟩
  | mk (.name id) _ => ⟨.refl _, .refl _⟩
  | mk (.list elts) _ => by
    have h := (((loosenedEach_wrapAll c elts).intercalate ", ").after "[").before "]"
    exact ⟨h, h⟩
  | mk (.tuple elts) _ => by
    have h := (loosenedEach_wrapAll c elts).intercalate ", "
    -- Only here the two texts differ: as a slice, the tuple has no brackets.
    refine ⟨?_, h⟩
    rw [wrap, wrapForm, written, written, length_wrapAll]
    exact ((h.after "(").before _).before ")"
  | mk (.index value) _ => ⟨(loosened_wrap c value).1, (loosened_wrap c value).1⟩
  | mk (.bare kind) _ => ⟨.refl _, .refl _⟩

theorem loosenedEach_wrapAll (c : Choice) : (es : List Expr) →
    LoosenedEach (chosenTuplesAll c es) (writtenAll es) (writtenAll (wrapAll c es))
  | [] => .nil
  | e :: rest => .cons (loosened_wrap (c.below 0) e).1 (loosenedEach_wrapAll (c.below 1) rest)

theorem loosenedEach_operands (c : Choice) : (es : List Expr) →
    LoosenedEach (chosenTuplesAll c es) (writtenOperands es) (writtenOperands (wrapAll c es))
  | [] => .nil
  | e :: rest =>
    .cons (loosened_operand (loosened_wrap (c.below 0) e).1) (loosenedEach_operands (c.below 1) rest)

theorem loosenedEach_keywords (c : Choice) : (ks : List Keyword) →
    LoosenedEach (chosenTuplesKeywords c ks) (writtenKeywords ks) (writtenKeywords (wrapKeywords c ks))
  | [] => .nil
  | .mk (some name) value :: rest =>
    .cons ((loosened_wrap (c.below 0) value).1.after (name ++ "=")) (loosenedEach_keywords (c.below 1) rest)
  | .mk none value :: rest =>
    .cons ((loosened_wrap (c.below 0) value).1.after "**") (loosenedEach_keywords (c.below 1) rest)

end

end Expr

end RegionIR
