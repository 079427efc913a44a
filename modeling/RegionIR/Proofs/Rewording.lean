import RegionIR.Ir.Printer
import RegionIR.Proofs.Loosening
import RegionIR.Proofs.Preorder
/-!
# Lowering a tree with wrapped slices

A tree and the same tree with wrapped slices are refused for the same construct, or they give the same
operators up to the texts that are recorded for expressions. A text is changed by each tuple that was the
slice of a chosen subscript, and by nothing else.
-/
namespace RegionIR

namespace Expr

mutual

/-- The number of chosen subscripts with a tuple in the texts that are recorded where an expression is
lowered: those of callees and named arguments. -/
def recordedTuples (c : Choice) : Expr → Nat
  | mk form _ =>
    match form with
    | .boolOp _ values => recordedTuplesAll c values
    | .binOp left _ right => recordedTuples (c.below 0) left + recordedTuples (c.below 1) right
    | .unaryOp _ operand => recordedTuples c operand
    | .compare left _ comparators =>
      recordedTuples (c.below 0) left + recordedTuplesAll (c.below 1) comparators
    | .call func args keywords =>
      recordedTuplesAll (c.below 1) args +
        (chosenTuples (c.below 0) func + (chosenTuplesKeywords (c.below 2) keywords).sum)
    | .constant .. | .name _ | .attr .. | .subscript .. | .starred _ | .list _ | .tuple _ | .index _
    | .bare _ => 0
termination_by structural e => e

def recordedTuplesAll (c : Choice) : List Expr → Nat
  | [] => 0
  | e :: rest => recordedTuples (c.below 0) e + recordedTuplesAll (c.below 1) rest
termination_by structural es => es

end

end Expr

def recordedTuples? (c : Choice) (e : Option Expr) : Nat := (e.map (·.recordedTuples c)).getD 0

namespace Stmt

mutual

/-- The number of chosen subscripts with a tuple in the texts that are recorded for a statement: also
those of decorators, bases and the keywords of a class, and of annotated targets that are not assigned. -/
def recordedTuples (inside : Bool) (c : Choice) : Stmt → Nat
  | mk form _ =>
    match form with
    | .functionDef _ _ body decorators _ =>
      recordedTuplesAll true (c.below 1) body + (Expr.chosenTuplesAll (c.below 2) decorators).sum
    | .classDef _ bases keywords body decorators =>
      recordedTuplesAll false (c.below 2) body + ((Expr.chosenTuplesAll (c.below 0) bases).sum +
        (Expr.chosenTuplesKeywords (c.below 1) keywords).sum +
        (Expr.chosenTuplesAll (c.below 3) decorators).sum)
    | .ret value => recordedTuples? c value
    | .assign _ value => value.recordedTuples (c.below 1)
    | .augAssign _ _ value => value.recordedTuples (c.below 1)
    | .annAssign target annot value _ =>
      recordedTuples? (c.below 2) value +
        if inside ∧ value.isSome then 0
        else target.chosenTuples (c.below 0) + annot.chosenTuples (c.below 1)
    | .forIn _ iter body _ => iter.recordedTuples (c.below 1) + recordedTuplesAll inside (c.below 2) body
    | .whileDo test body _ => test.recordedTuples (c.below 0) + recordedTuplesAll inside (c.below 1) body
    | .ifElse test body orelse =>
      test.recordedTuples (c.below 0) + (recordedTuplesAll inside (c.below 1) body +
        recordedTuplesAll inside (c.below 2) orelse)
    | .expr value => value.recordedTuples c
    | .pass | .breakLoop | .continueLoop | .bare _ => 0
termination_by structural s => s

def recordedTuplesAll (inside : Bool) (c : Choice) : List Stmt → Nat
  | [] => 0
  | s :: rest => recordedTuples inside (c.below 0) s + recordedTuplesAll inside (c.below 1) rest
termination_by structural ss => ss

end

end Stmt

/-- The number of chosen subscripts with a tuple in the texts that are recorded for a unit. -/
def SourceUnit.recordedTuples (c : Choice) : SourceUnit → Nat
  | module body => Stmt.recordedTuplesAll false c body
  | interactive | expression | functionType => 0

private theorem loosened_writtenList (c : Choice) (es : List Expr) :
    Loosened (Expr.chosenTuplesAll c es).sum (writtenList es) (writtenList (Expr.wrapAll c es)) := by
  apply Loosened.list
  apply LoosenedEach.loosened
  induction es generalizing c with
  | nil => exact .nil
  | cons e rest ih => exact .cons (e.loosened_wrap (c.below 0)).1.text (ih (c.below 1))

private theorem Keyword.loosened_wrap (c : Choice) (arg : Option String) (value : Expr) :
    Loosened (value.chosenTuples c) (Attr.text (Keyword.mk arg value).written)
      (Attr.text (Keyword.mk arg (value.wrap c)).written) := by
  apply Loosened.text
  cases arg with
  | none => exact (value.loosened_wrap c).1.after "**"
  | some name => exact (value.loosened_wrap c).1.after (name ++ "=")

private theorem loosened_writtenKeywords (c : Choice) (ks : List Keyword) :
    Loosened (Expr.chosenTuplesKeywords c ks).sum (Attr.list (ks.map fun k => .text k.written))
      (Attr.list ((Expr.wrapKeywords c ks).map fun k => .text k.written)) := by
  apply Loosened.list
  apply LoosenedEach.loosened
  induction ks generalizing c with
  | nil => exact .nil
  | cons k rest ih =>
    obtain ⟨arg, value⟩ := k
    exact .cons (Keyword.loosened_wrap (c.below 0) arg value) (ih (c.below 1))

private theorem namedArguments_wrap (c : Choice) (ks : List Keyword) :
    (∃ r, namedArguments ks = .error r ∧ namedArguments (Expr.wrapKeywords c ks) = .error r) ∨
      ∃ as as', namedArguments ks = .ok as ∧ namedArguments (Expr.wrapKeywords c ks) = .ok as' ∧
        LoosenedEach (Expr.chosenTuplesKeywords c ks) as as' := by
  induction ks generalizing c with
  | nil => exact .inr ⟨[], [], rfl, rfl, .nil⟩
  | cons k rest ih =>
    obtain ⟨arg, value⟩ := k
    cases arg with
    | none =>
      left
      refine ⟨⟨.keywordUnpacking, value.span⟩, rfl, ?_⟩
      simp [Expr.wrapKeywords, namedArguments, Keyword.arg, Keyword.value]
    | some name =>
      rcases ih (c.below 1) with ⟨r, hr, hr'⟩ | ⟨as, as', has, has', heach⟩
      · left
        refine ⟨r, ?_, ?_⟩
        · simp [namedArguments, Keyword.arg, hr]
        · simp [Expr.wrapKeywords, namedArguments, Keyword.arg, hr']
      · right
        refine ⟨_, _, ?_, ?_, .cons (Keyword.loosened_wrap (c.below 0) (some name) value) heach⟩
        · simp [namedArguments, Keyword.arg, has]
        · simp [Expr.wrapKeywords, namedArguments, Keyword.arg, has']

private theorem Loosened.ofText {k : Nat} {h : Head} {key s s' : String} (hs : Loosened k s s')
    (source : key ∈ h.sourceKeys) (new : h.attrs.get? key = none) :
    Loosened k (h.withAttr key (.text s)) (h.withAttr key (.text s')) := by
  have first := (Loosened.refl h).withAttr hs.text (.inl source) new
  rwa [Nat.zero_add] at first

private theorem loosened_fieldHead (c d : Choice) (target annot : Expr) (simple : UInt8) :
    Loosened (target.chosenTuples c + annot.chosenTuples d) (fieldHead target annot simple)
      (fieldHead (target.wrap c) (annot.wrap d) simple) := by
  have htarget : Loosened _ ((Head.py "annAssign").withAttr "target" _) _ :=
    (target.loosened_wrap c).1.ofText (by simp [Head.sourceKeys]) rfl
  have hannot : Loosened _ (Head.withAttr _ "annotation" _) _ :=
    htarget.withAttr (annot.loosened_wrap d).1.text (.inl (by simp [Head.sourceKeys]))
      (by simp [Attrs.get?_set_of_ne])
  exact hannot.withAttr (.refl _) (.inr rfl) (by simp [Attrs.get?_set_of_ne])

private theorem loosened_classHead (name : String) (b k d : Choice) (bases : List Expr)
    (keywords : List Keyword) (decorators : List Expr) :
    Loosened ((Expr.chosenTuplesAll b bases).sum + (Expr.chosenTuplesKeywords k keywords).sum +
        (Expr.chosenTuplesAll d decorators).sum)
      (classHead name bases keywords decorators)
      (classHead name (Expr.wrapAll b bases) (Expr.wrapKeywords k keywords)
        (Expr.wrapAll d decorators)) := by
  have hname : Loosened 0 ((Head.py "class").withAttr "name" (.text name)) _ := .refl _
  have hbases : Loosened _ (Head.withAttr _ "bases" _) _ :=
    hname.withAttr (loosened_writtenList b bases) (.inl (by simp [Head.sourceKeys]))
      (by simp [Attrs.get?_set_of_ne])
  have hkeywords : Loosened _ (Head.withAttr _ "keywords" _) _ :=
    hbases.withAttr (loosened_writtenKeywords k keywords) (.inl (by simp [Head.sourceKeys]))
      (by simp [Attrs.get?_set_of_ne])
  have hdecorators : Loosened _ (Head.withAttr _ "decorators" _) _ :=
    hkeywords.withAttr (loosened_writtenList d decorators) (.inl (by simp [Head.sourceKeys]))
      (by simp [Attrs.get?_set_of_ne])
  rw [Nat.zero_add] at hdecorators
  exact hdecorators

private theorem loosened_functionHead (name : String) (c : Choice) (decorators : List Expr)
    (formals : List (ValueId × Ty)) (result : Ty) :
    Loosened (Expr.chosenTuplesAll c decorators).sum (functionHead name decorators formals result)
      (functionHead name (Expr.wrapAll c decorators) formals result) := by
  cases decorators with
  | nil => exact .refl _
  | cons first rest =>
    have hdecorators : Loosened _
        (((Head.builtin "func").withAttr "sym_name" (.text name)).withAttr "decorators" _) _ :=
      (Loosened.refl _).withAttr (loosened_writtenList c (first :: rest))
        (.inl (by simp [Head.sourceKeys])) (by simp [Attrs.get?_set_of_ne])
    rw [Nat.zero_add] at hdecorators
    exact hdecorators.withAttr (.refl _) (.inr rfl) (by simp [Attrs.get?_set_of_ne])

namespace Lower

namespace Tracks

variable {inside : Bool} {k : Nat}

private theorem comparePairs : (ops : List CmpOperator) → (xs : List Operand) →
    Tracks inside 0 Eq (comparePairs ops xs) (comparePairs ops xs)
  | _ :: ops, _ :: right :: more =>
    lead (compute _ _) fun _ => lead (comparePairs ops (right :: more)) fun _ => pure rfl
  | [], _ => pure rfl
  | _ :: _, [] => pure rfl
  | _ :: _, [_] => pure rfl

private theorem conjoin (first : Operand) (rest : List Operand) :
    Tracks inside 0 Eq (conjoin first rest) (conjoin first rest) := by
  induction rest generalizing first with
  | nil => exact pure rfl
  | cons next rest ih => exact lead (compute _ _) ih

private theorem namedArguments (c : Choice) (ks : List Keyword) :
    Tracks inside 0 (Loosened (Expr.chosenTuplesKeywords c ks).sum)
      (ofExcept (RegionIR.namedArguments ks))
      (ofExcept (RegionIR.namedArguments (Expr.wrapKeywords c ks))) := by
  rcases namedArguments_wrap c ks with ⟨r, hr, hr'⟩ | ⟨as, as', has, has', heach⟩
  · rw [hr, hr']
    exact refuse r.construct r.span
  · rw [has, has']
    exact pure heach.loosened

private theorem keywordAttr (c : Choice) (ks : List Keyword) {h h' : Head} (hh : Loosened k h h')
    (source : "keywords" ∈ h.sourceKeys) (new : h.attrs.get? "keywords" = none) :
    Tracks inside 0 (Loosened (k + (Expr.chosenTuplesKeywords c ks).sum))
      (if ks.isEmpty then return h
        else do return h.withAttr "keywords" (.list (← ofExcept (RegionIR.namedArguments ks))))
      (if (Expr.wrapKeywords c ks).isEmpty then return h'
        else do
          return h'.withAttr "keywords" (.list (← ofExcept (RegionIR.namedArguments
            (Expr.wrapKeywords c ks))))) := by
  have hargs : Tracks inside 0 _ _ _ := namedArguments c ks
  cases ks with
  | nil => exact pure hh
  | cons first rest =>
    obtain ⟨arg, value⟩ := first
    rw [if_neg (by simp), if_neg (by simp [Expr.wrapKeywords])]
    exact bind (l := 0) hargs fun as as' has => pure (hh.withAttr has.list (.inl source) new)

private theorem callHead (c : Choice) (func : Expr) (values : List Operand) :
    Loosened (func.chosenTuples c) (((Head.py "call").withAttr "callee" (.text func.written)).withArgs values)
      (((Head.py "call").withAttr "callee" (.text (func.wrap c).written)).withArgs values) := by
  have h := (func.loosened_wrap c).1.ofText (h := Head.py "call") (by simp [Head.sourceKeys])
    (Attrs.get?_empty "callee")
  exact h.withArgs values

mutual

theorem operand (c : Choice) : (e : Expr) →
    Tracks inside (e.recordedTuples c) Eq (operand e) (operand (e.wrap c))
  | .mk (.name id) _ => step (.read id)
  | .mk (.constant _ _) _ => compute _ _
  | .mk (.binOp left _ right) _ =>
    next (operand (c.below 0) left) fun _ => next (operand (c.below 1) right) fun _ => compute _ _
  | .mk (.unaryOp _ e) _ => next (operand c e) fun _ => compute _ _
  | .mk (.boolOp _ []) _ => refuse _ _
  | .mk (.boolOp _ [_]) _ => refuse _ _
  | .mk (.boolOp op (first :: second :: rest)) _ =>
    next (operand (c.below 0) first) fun _ => next (operand ((c.below 1).below 0) second) fun _ =>
      lead (compute _ _) fun ab => joinAll ((c.below 1).below 1) op rest ab
  | .mk (.compare left ops comparators) span => by
    rw [Expr.wrap, Expr.wrapForm, Lower.operand, Lower.operand, Expr.length_wrapAll]
    split
    · exact refuse _ _
    · apply next (operand (c.below 0) left)
      intro first
      apply next (k := Expr.recordedTuplesAll (c.below 1) comparators) (l := 0) (operands (c.below 1) comparators)
      intro rest
      apply lead (comparePairs ops (first :: rest))
      intro results
      cases results with
      | nil => exact refuse _ _
      | cons result more => exact conjoin result more
  | .mk (.call func args keywords) _ => by
    rw [Expr.wrap, Expr.wrapForm, Lower.operand, Lower.operand]
    apply next (arguments (c.below 1) args)
    intro values
    have hhead := callHead (c.below 0) func values
    have hkeywords : Tracks inside 0 _ _ _ := keywordAttr (c.below 2) keywords hhead
      (by simp [Head.sourceKeys]) (by simp [Attrs.get?_set_of_ne])
    have htype (s : State) (bs : Blocks) :
        callTy (func.wrap (c.below 0)) (s.withBlocks bs) = callTy func s := by
      rw [callTy, callTy, Expr.dotted?_wrap]
      rfl
    have h := bind (R := Eq) hkeywords fun _ _ hh => ask htype fun ty => emitResult hh ty
    rw [Nat.zero_add] at h
    exact h
  | .mk (.attr _ _) _ => refuse _ _
  | .mk (.subscript _ _) _ => refuse _ _
  | .mk (.starred _) _ => refuse _ _
  | .mk (.list _) _ => refuse _ _
  | .mk (.tuple _) _ => refuse _ _
  | .mk (.index _) _ => refuse _ _
  | .mk (.bare _) _ => refuse _ _

theorem joinAll (c : Choice) (op : BoolOperator) : (es : List Expr) → (joined : Operand) →
    Tracks inside (Expr.recordedTuplesAll c es) Eq (joinAll op joined es)
      (joinAll op joined (Expr.wrapAll c es))
  | [], _ => pure rfl
  | e :: rest, _ =>
    next (operand (c.below 0) e) fun _ => lead (compute _ _) fun joined =>
      joinAll (c.below 1) op rest joined

theorem operands (c : Choice) : (es : List Expr) →
    Tracks inside (Expr.recordedTuplesAll c es) Eq (operands es) (operands (Expr.wrapAll c es))
  | [] => pure rfl
  | e :: rest => next (operand (c.below 0) e) fun _ => next (operands (c.below 1) rest) fun _ => pure rfl

theorem arguments (c : Choice) : (es : List Expr) →
    Tracks inside (Expr.recordedTuplesAll c es) Eq (arguments es) (arguments (Expr.wrapAll c es))
  | [] => pure rfl
  | e :: rest => by
    rw [Expr.wrapAll, Lower.arguments, Lower.arguments, Expr.isStarred_wrap, Expr.span_wrap]
    exact guard Iff.rfl (next (operand (c.below 0) e) fun _ =>
      next (arguments (c.below 1) rest) fun _ => pure rfl)

end

end Tracks

private theorem targetName_wrap (c : Choice) (target : Expr) (span : Option Span)
    (refusal : String → Construct) :
    targetName (target.wrap c) span refusal = targetName target span refusal := by
  rw [targetName, targetName, Expr.name?_wrap, Expr.kind_wrap, Expr.span_wrap]

private theorem singleTarget_wrap (c : Choice) (targets : List Expr) (span : Option Span) :
    singleTarget (Expr.wrapAll c targets) span = singleTarget targets span := by
  rcases targets with _ | ⟨target, _ | ⟨next, rest⟩⟩
  · rfl
  · exact targetName_wrap (c.below 0) target span .assignTarget
  · simp [singleTarget, Expr.wrapAll]

namespace Tracks

variable {inside : Bool} {k l : Nat}

private theorem targetName (target : Expr) (span : Option Span) (refusal : String → Construct) :
    Tracks inside 0 Eq (targetName target span refusal) (targetName target span refusal) := by
  rw [Lower.targetName]
  split
  · exact pure rfl
  · exact refuse _ _

private theorem singleTarget (targets : List Expr) (span : Option Span) :
    Tracks inside 0 Eq (singleTarget targets span) (singleTarget targets span) := by
  rcases targets with _ | ⟨target, _ | ⟨next, rest⟩⟩
  · exact refuse _ _
  · exact targetName target span .assignTarget
  · exact refuse _ _

private theorem exprRegion (c : Choice) (e : Expr) :
    Tracks inside (e.recordedTuples c) Eq (exprRegion e) (exprRegion (e.wrap c)) := by
  have hinner : Tracks inside (e.recordedTuples c) Eq
      (do let x ← Lower.operand e; Lower.emit (.ofHead ((Head.py "yield").withArgs [x])))
      (do let x ← Lower.operand (e.wrap c); Lower.emit (.ofHead ((Head.py "yield").withArgs [x]))) :=
    next (operand c e) fun _ => emit (.refl _)
  rw [Lower.exprRegion, Lower.exprRegion]
  exact next (inBlock fun _ => hinner) fun _ => pure rfl

private theorem bindParams (c : Choice) (entry : Nat) (params : List Param) :
    Tracks inside 0 Eq (bindParams entry params) (bindParams entry (c.each Param.wrap params)) := by
  induction params generalizing c with
  | nil => exact pure rfl
  | cons p rest ih =>
    rw [Choice.each, Lower.bindParams, Lower.bindParams, Param.wrap, annotatedTy?_wrap]
    exact lead (step (.parameter _ _ _)) fun _ => lead (ih (c.below 1)) fun _ => pure rfl

private theorem assignment (c : Choice) (name : String) (value : Expr) (declared : Option Ty) :
    Tracks inside (value.recordedTuples c) (Loosened 0) (assignment name value declared)
      (assignment name (value.wrap c) declared) := by
  rw [Lower.assignment, Lower.assignment]
  exact next (operand c value) fun x => lead (step (.assign name x declared)) fun _ => pure (.refl _)

private theorem fieldDeclaration (c d e : Choice) (target annot : Expr) (value : Option Expr)
    (simple : UInt8) :
    Tracks inside (recordedTuples? e value) (Loosened (target.chosenTuples c + annot.chosenTuples d))
      (fieldDeclaration target annot value simple)
      (fieldDeclaration (target.wrap c) (annot.wrap d) (value.map (·.wrap e)) simple) := by
  have hhead := loosened_fieldHead c d target annot simple
  rw [Lower.fieldDeclaration, Lower.fieldDeclaration, Expr.name?_wrap, Expr.annotatedTy_wrap]
  cases value with
  | none =>
    cases target.name? with
    | none => exact pure (hhead.ofHead [])
    | some name => exact lead (update (.declare name _)) fun _ => pure (hhead.ofHead [])
  | some value =>
    have hvalue : Tracks inside _ _ _ _ := operand e value
    cases target.name? with
    | none => exact next hvalue fun x => pure ((hhead.withArgs [x]).ofHead [])
    | some name =>
      exact lead (update (.declare name _)) fun _ => next hvalue fun x => pure ((hhead.withArgs [x]).ofHead [])

private theorem annotated (c d e : Choice) (target annot : Expr) (value : Option Expr) (simple : UInt8)
    (span : Option Span) :
    Tracks inside (recordedTuples? e value)
      (Loosened (if inside ∧ value.isSome then 0 else target.chosenTuples c + annot.chosenTuples d))
      (annotated target annot value simple span)
      (annotated (target.wrap c) (annot.wrap d) (value.map (·.wrap e)) simple span) := by
  rw [Lower.annotated, Lower.annotated, targetName_wrap, Expr.annotatedTy_wrap]
  apply site
  · rintro rfl
    cases value with
    | none => exact lead (targetName target span _) fun _ => fieldDeclaration c d e target annot none simple
    | some value => exact lead (targetName target span _) fun name => assignment e name value _
  · rintro rfl
    exact fieldDeclaration c d e target annot value simple

private theorem function (c : Choice) (name : String) (params : Params) (decorators : List Expr)
    (returns : Option Expr) (span : Option Span) {x y : Lower Unit} (hx : Tracks true k Eq x y) :
    Tracks inside k (Loosened (Expr.chosenTuplesAll (c.below 2) decorators).sum)
      (function name params decorators returns span x)
      (function name (params.wrap (c.below 0)) (Expr.wrapAll (c.below 2) decorators)
        (returns.map (·.wrap (c.below 3))) span y) := by
  rw [Lower.function, Lower.function, Params.refused?_wrap, annotatedTy?_wrap]
  cases params.refused? with
  | some construct => exact refuse _ _
  | none =>
    have hblock : Tracks true k Eq
        (Lower.inBlock fun entry => do let formals ← Lower.bindParams entry params.plain; x; return formals)
        (Lower.inBlock fun entry => do
          let formals ← Lower.bindParams entry (params.wrap (c.below 0)).plain; y; return formals) :=
      inBlock fun entry => lead (bindParams _ entry params.plain) fun _ => next hx fun _ => pure rfl
    exact lead (update (.declare name _)) fun _ => detour function_detour hblock fun p =>
      pure ((loosened_functionHead name (c.below 2) decorators p.2 _).ofHead [⟨p.1, some ⟨entryLabel, p.2⟩⟩])

private theorem classDefinition (c : Choice) (name : String) (bases : List Expr)
    (keywords : List Keyword)
    (decorators : List Expr) {x y : Lower Unit} (hx : Tracks false k Eq x y) :
    Tracks inside k (Loosened ((Expr.chosenTuplesAll (c.below 0) bases).sum +
        (Expr.chosenTuplesKeywords (c.below 1) keywords).sum +
        (Expr.chosenTuplesAll (c.below 3) decorators).sum))
      (classDefinition name bases keywords decorators x)
      (classDefinition name (Expr.wrapAll (c.below 0) bases) (Expr.wrapKeywords (c.below 1) keywords)
        (Expr.wrapAll (c.below 3) decorators) y) := by
  have hhead := loosened_classHead name (c.below 0) (c.below 1) (c.below 3) bases keywords decorators
  rw [Lower.classDefinition, Lower.classDefinition]
  exact detour class_detour hx.region fun slot => pure (hhead.ofHead [slot])

mutual

/-- What a statement records in the state, and on its operator, which is not yet appended. -/
theorem statement {inside : Bool} (c : Choice) : (st : Stmt) → ∃ k l, k + l = st.recordedTuples inside c ∧
    Tracks inside k (Loosened l) (Lower.statement st) (Lower.statement (st.wrap c))
  | .mk (.functionDef name params stmts decorators returns) span =>
    ⟨_, _, rfl, function c name params decorators returns span (body (c.below 1) stmts)⟩
  | .mk (.classDef name bases keywords stmts decorators) _ =>
    ⟨_, _, rfl, classDefinition c name bases keywords decorators (body (c.below 2) stmts)⟩
  | .mk (.ret none) _ => ⟨0, 0, rfl, pure (.refl _)⟩
  | .mk (.ret (some e)) _ => ⟨_, 0, rfl, next (operand c e) fun _ => pure (.refl _)⟩
  | .mk (.assign targets value) span => by
    refine ⟨_, 0, rfl, ?_⟩
    rw [Stmt.wrap, Stmt.wrapForm, Lower.statement, Lower.statement, singleTarget_wrap]
    exact lead (singleTarget targets span) fun name => assignment (c.below 1) name value none
  | .mk (.augAssign target op value) span => by
    refine ⟨_, 0, rfl, ?_⟩
    rw [Stmt.wrap, Stmt.wrapForm, Lower.statement, Lower.statement, targetName_wrap]
    exact lead (targetName target span _) fun name => next (operand (c.below 1) value) fun _ =>
      lead (update (.writeThrough name)) fun _ => pure (.refl _)
  | .mk (.annAssign target annot value simple) span =>
    ⟨_, _, rfl, annotated (c.below 0) (c.below 1) (c.below 2) target annot value simple span⟩
  | .mk (.forIn target iter stmts orelse) span => by
    refine ⟨_, 0, rfl, ?_⟩
    rw [Stmt.wrap, Stmt.wrapForm, Lower.statement, Lower.statement, Stmt.isEmpty_wrapAll, targetName_wrap]
    exact guard Iff.rfl (lead (targetName target span _) fun name =>
      next (exprRegion (c.below 1) iter) fun _ => lead (update (.writeThrough name)) fun _ =>
        next (body (c.below 2) stmts).region fun _ => pure (.refl _))
  | .mk (.whileDo test stmts orelse) span => by
    refine ⟨_, 0, rfl, ?_⟩
    rw [Stmt.wrap, Stmt.wrapForm, Lower.statement, Lower.statement, Stmt.isEmpty_wrapAll]
    exact guard Iff.rfl (next (exprRegion (c.below 0) test) fun _ =>
      next (body (c.below 1) stmts).region fun _ => pure (.refl _))
  | .mk (.ifElse test stmts []) _ =>
    ⟨_, 0, rfl, next (operand (c.below 0) test) fun _ =>
      next (body (c.below 1) stmts).region fun _ => pure (.refl _)⟩
  | .mk (.ifElse test stmts (first :: rest)) _ =>
    ⟨_, 0, rfl, next (operand (c.below 0) test) fun _ => next (body (c.below 1) stmts).region fun _ =>
      next (l := 0) (body (c.below 2) (first :: rest)).region fun _ => pure (.refl _)⟩
  | .mk (.expr value) _ => ⟨_, 0, rfl, next (operand c value) fun _ => pure (.refl _)⟩
  | .mk .pass _ => ⟨0, 0, rfl, pure (.refl _)⟩
  | .mk .breakLoop _ => ⟨0, 0, rfl, pure (.refl _)⟩
  | .mk .continueLoop _ => ⟨0, 0, rfl, pure (.refl _)⟩
  | .mk (.bare _) _ => ⟨0, 0, rfl, refuse _ _⟩

theorem body {inside : Bool} (c : Choice) : (stmts : List Stmt) →
    Tracks inside (Stmt.recordedTuplesAll inside c stmts) Eq (Lower.body stmts)
      (Lower.body (Stmt.wrapAll c stmts))
  | [] => pure rfl
  | st :: rest => by
    obtain ⟨k, l, hkl, hst⟩ : ∃ k l, k + l = st.recordedTuples inside (c.below 0) ∧
      Tracks inside k (Loosened l) _ _ := statement (c.below 0) st
    have h := hst.bind fun _ _ hop => next (emit hop) fun _ => body (c.below 1) rest
    rw [← Nat.add_assoc, hkl] at h
    exact h

end

end Tracks

end Lower

namespace Blocks

private theorem contents_bare (bs : Blocks) (block : Nat) :
    contents (Textual.bare bs) block = Textual.bare (bs.contents block) := by
  cases hitems : bs[block]? <;> simp [Textual.bare, contents, hitems]

private theorem set_bare (bs : Blocks) (block : Nat) :
    List.set (Textual.bare bs) block [] = Textual.bare (List.set bs block []) := by
  simp [Textual.bare]

private theorem total_bare (bs : Blocks) : total (Textual.bare bs) = bs.total := by
  induction bs with
  | nil => rfl
  | cons items rest ih =>
    have hitems : (Textual.bare items).length = items.length := List.length_map _
    exact congrArg₂ (· + ·) hitems ih

private theorem thread_bare {α β : Type} {f : α → Blocks → β × Blocks} {into : α → α} {out : β → β}
    (hf : ∀ a bs, f (into a) (Textual.bare bs) = (out (f a bs).1, Textual.bare (f a bs).2)) (as : List α)
    (bs : Blocks) : thread f (as.map into) (Textual.bare bs) =
      ((thread f as bs).1.map out, Textual.bare (thread f as bs).2) := by
  induction as generalizing bs with
  | nil => rfl
  | cons a rest ih => simp only [List.map_cons, thread, hf, ih]

private theorem assembleTo_bare (depth : Nat) (staged : Staged) (bs : Blocks) :
    assembleTo depth (Textual.bare staged) (Textual.bare bs) =
      (Textual.bare (assembleTo depth staged bs).1, Textual.bare (assembleTo depth staged bs).2) := by
  induction depth generalizing staged bs with
  | zero => rfl
  | succ depth ih =>
    have hregion (slot : Slot) (bs : Blocks) : assembleRegion depth (id slot) (Textual.bare bs) =
        (Operator.mapHeadsRegion Textual.bare (assembleRegion depth slot bs).1,
          Textual.bare (assembleRegion depth slot bs).2) := by
      have hitems : thread (assembleTo depth) (Textual.bare (bs.contents slot.block)) _ = _ :=
        thread_bare ih (bs.contents slot.block) (List.set bs slot.block [])
      rw [assembleRegion, id_eq, contents_bare, set_bare, hitems, assembleRegion]
      simp only [Region.single, Operator.mapHeadsRegion, Region.blocks, Block.label, Block.items,
        List.map_cons, List.map_nil]
      rfl
    -- The slots say which blocks are taken out, and texts do not change them.
    have hthread := thread_bare hregion staged.slots bs
    rw [List.map_id] at hthread
    obtain ⟨⟨head, regions⟩, slots⟩ := staged
    rw [assembleTo_succ, assembleTo_succ]
    simp only [Textual.bare, Operator.mapHeads, Operator.mapHeadsAt, Operator.mapRegionsAt_const,
      Operator.head, Operator.regions, List.map_append] at hthread ⊢
    rw [hthread]

private theorem assemble_bare (bs : Blocks) (staged : Staged) :
    (assemble (Textual.bare bs) (Textual.bare staged)).1 = Textual.bare (bs.assemble staged).1 := by
  rw [assemble, total_bare, assembleTo_bare, assemble]

end Blocks

private theorem Blocks.size_eq_sum (bs : Blocks) :
    Textual.size bs = (bs.flatten.map fun staged => Textual.size staged.op.head).sum := by
  induction bs with
  | nil => rfl
  | cons items rest ih =>
    rw [List.flatten_cons, List.map_append, List.sum_append, ← ih]
    rfl

private theorem SourceUnit.size_of_lower {stmts : List Stmt} {op : Operator}
    (accepted : (SourceUnit.module stmts).lower = .ok op) {slot : Slot} {t : State}
    (run : Lower.Runs (Lower.region (Lower.body stmts)) {} slot t) :
    Textual.size op = Textual.size t.blocks := by
  obtain ⟨changes, t', ops, records, unfolds, rfl⟩ := SourceUnit.records_of_lower accepted
  obtain ⟨rfl, rfl⟩ := Lower.Runs.unique run records.logs.runs
  have bare : t.blocks.Bare := fun b staged hstaged => (records.all b staged hstaged).regions
  have hperm := (unfolds.heads_perm bare).map Textual.size
  rw [Blocks.segment_all, List.map_map, List.map_map] at hperm
  have hmodule : Textual.size (Head.builtin "module") = 0 := rfl
  show ((Operator.walk (.mk _ _)).map fun o => Textual.size o.head).sum = _
  rw [Blocks.size_eq_sum, Operator.walk_mk, List.map_cons, List.sum_cons, Operator.head, hmodule,
    Nat.zero_add]
  exact hperm.sum_eq

private theorem SourceUnit.lower_of_ok {stmts : List Stmt} {slot : Slot} {t : State}
    (h : Lower.region (Lower.body stmts) {} = .ok slot t) : (SourceUnit.module stmts).lower =
      .ok (t.blocks.assemble (.ofHead (Head.builtin "module") [slot])).1 := by
  have hmodule : Lower.module stmts {} = EStateM.bind (Lower.region (Lower.body stmts)) _ {} := rfl
  rw [EStateM.bind, h] at hmodule
  simp only [SourceUnit.lower, SourceUnit.lowerLogged, Lower.sourceUnit, SourceUnit.body?, EStateM.run]
  rw [hmodule]
  rfl

private theorem SourceUnit.lower_of_error {stmts : List Stmt} {e : LowerError} {t : State}
    (h : Lower.region (Lower.body stmts) {} = .error e t) : (SourceUnit.module stmts).lower = .error e := by
  have hmodule : Lower.module stmts {} = EStateM.bind (Lower.region (Lower.body stmts)) _ {} := rfl
  rw [EStateM.bind, h] at hmodule
  simp only [SourceUnit.lower, SourceUnit.lowerLogged, Lower.sourceUnit, SourceUnit.body?, EStateM.run]
  rw [hmodule]

/-- Lowering a module goes together with lowering it with wrapped slices. -/
theorem Lower.together_module (c : Choice) (stmts : List Stmt) :
    Lower.Together {} (Stmt.recordedTuplesAll false c stmts) Eq (Lower.region (Lower.body stmts) {})
      (Lower.region (Lower.body (Stmt.wrapAll c stmts)) {}) := by
  have h : Lower.Together {} (0 + Stmt.recordedTuplesAll false c stmts) Eq
      (Lower.inBlock (fun _ => Lower.body stmts) {})
      (Lower.inBlock (fun _ => Lower.body (Stmt.wrapAll c stmts)) {}) :=
    Lower.together_inBlock (s := {}) rfl (.refl []) fun _ => Lower.Tracks.body c stmts
  rw [Nat.zero_add] at h
  exact h.map fun p => (⟨p.1, none⟩ : Slot)

private theorem Blocks.bare_assemble {k : Nat} {bs bs' : Blocks} (h : Loosened k bs bs')
    (root : Staged) :
    Textual.bare (bs'.assemble root).1 = Textual.bare (bs.assemble root).1 := by
  rw [← assemble_bare, ← assemble_bare, h.bare]

/-- Wrapped slices change nothing but texts. A tree with wrapped slices is refused for the same construct
at the same place as without, or it gives the same operators up to brackets and commas in the texts that
are recorded for expressions. These texts are the same, too, exactly if none of them has a tuple that was
the slice of a chosen subscript. -/
theorem wrapped_slices_lower_alike (u : SourceUnit) (c : Choice) :
    (∀ e, (u.wrap c).lower = .error e ↔ u.lower = .error e) ∧
    ∀ op, u.lower = .ok op → ∃ op', (u.wrap c).lower = .ok op' ∧
      Textual.bare op' = Textual.bare op ∧ (op' = op ↔ u.recordedTuples c = 0) := by
  cases u with
  | module stmts =>
    have together := Lower.together_module c stmts
    generalize hrun : Lower.region (Lower.body stmts) {} = r,
      hrun' : Lower.region (Lower.body (Stmt.wrapAll c stmts)) {} = r' at together
    cases together with
    | error =>
      have hlower := SourceUnit.lower_of_error hrun
      have hlower' : (SourceUnit.wrap c (.module stmts)).lower = _ := SourceUnit.lower_of_error hrun'
      rw [hlower, hlower']
      refine ⟨fun _ => Iff.rfl, fun op hop => ?_⟩
      cases hop
    | @ok slot slot' t bs stays blocks result =>
      subst result
      have hlower := SourceUnit.lower_of_ok hrun
      have hlower' : (SourceUnit.wrap c (.module stmts)).lower = _ := SourceUnit.lower_of_ok hrun'
      refine ⟨by simp [hlower, hlower'], fun op hop => ?_⟩
      obtain rfl := Except.ok.inj (hlower.symm.trans hop)
      refine ⟨_, hlower', Blocks.bare_assemble blocks _, ?_, ?_⟩
      · -- Equal trees have equally much text, and every chosen tuple that is recorded adds some.
        intro same
        have hsame : Textual.size bs = Textual.size t.blocks := by
          rw [← SourceUnit.size_of_lower hlower hrun, ← same]
          exact (SourceUnit.size_of_lower hlower' hrun').symm
        have hsize := blocks.size
        show Stmt.recordedTuplesAll false c stmts = 0
        omega
      · intro none
        rw [blocks.same none]
  | interactive => exact ⟨fun _ => Iff.rfl, fun op h => ⟨op, h, rfl, iff_of_true rfl rfl⟩⟩
  | expression => exact ⟨fun _ => Iff.rfl, fun op h => ⟨op, h, rfl, iff_of_true rfl rfl⟩⟩
  | functionType => exact ⟨fun _ => Iff.rfl, fun op h => ⟨op, h, rfl, iff_of_true rfl rfl⟩⟩

def tableFunction : SourceUnit :=
  .module [.function "count" [⟨"rows", some (.subscript (.ofName "Dict")
    (.tuple [.ofName "str", .ofName "int"]))⟩] (some (.ofName "int")) [.ofForm .pass]]

/-- With the type of the table wrapped, it gives the same tree: a type is not recorded as text. -/
theorem tableFunction_unchanged :
    ∃ op, tableFunction.lower = .ok op ∧
      (op.walk.filterMap fun o => (o.head.attrs.get? "function_type").map Attr.render) =
        ["(!_.Dict<!_.str,!_.int>) -> !_.int"] ∧
      (tableFunction.wrap (.only [0, 0, 1, 0])).lower = .ok op := by
  obtain ⟨op, accepted, htypes⟩ := SourceUnit.exists_of_view
    (show tableFunction.lower.toOption.map
      (fun op => op.walk.filterMap fun o => (o.head.attrs.get? "function_type").map Attr.render) =
        some ["(!_.Dict<!_.str,!_.int>) -> !_.int"] by decide +kernel)
  obtain ⟨op', accepted', -, same⟩ :=
    (wrapped_slices_lower_alike tableFunction (.only [0, 0, 1, 0])).2 op accepted
  rw [same.mpr (by decide)] at accepted'
  exact ⟨op, accepted, htypes, accepted'⟩

def tableClass : SourceUnit :=
  .module [.ofForm (.classDef "Index" [] []
    [.annAssign "rows" (.subscript (.ofName "Dict") (.tuple [.ofName "str", .ofName "int"])) none] [])]

/-- With the type of the table wrapped, its text gets brackets. -/
theorem tableClass_reworded :
    ∃ op op', tableClass.lower = .ok op ∧ (tableClass.wrap (.only [0, 2, 0, 1])).lower = .ok op' ∧
      (op.walk.filterMap fun o => (o.head.attrs.get? "annotation").map Attr.render) =
        ["\"Dict[str, int]\""] ∧
      (op'.walk.filterMap fun o => (o.head.attrs.get? "annotation").map Attr.render) =
        ["\"Dict[(str, int)]\""] ∧ op' ≠ op := by
  obtain ⟨op, accepted, htext⟩ := SourceUnit.exists_of_view
    (show tableClass.lower.toOption.map
      (fun op => op.walk.filterMap fun o => (o.head.attrs.get? "annotation").map Attr.render) =
        some ["\"Dict[str, int]\""] by decide +kernel)
  obtain ⟨op', accepted', htext'⟩ := SourceUnit.exists_of_view
    (show (tableClass.wrap (.only [0, 2, 0, 1])).lower.toOption.map
      (fun op => op.walk.filterMap fun o => (o.head.attrs.get? "annotation").map Attr.render) =
        some ["\"Dict[(str, int)]\""] by decide +kernel)
  refine ⟨op, op', accepted, accepted', htext, htext', ?_⟩
  rintro rfl
  rw [htext] at htext'
  exact absurd htext' (by decide)

end RegionIR
