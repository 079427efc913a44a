import RegionIR.Proofs.Extension
import RegionIR.Tree.Build
/-!
# What lowering refuses

Whether a tree is lowered, and what is reported if it is not, does not depend on the state of lowering:
a checker that goes over the tree in the same order, and knows only in which kind of definition a
statement stands, finds the same first offence. It knows nothing of variables, types or values.
-/
namespace RegionIR

open Lower (Runs)

/-- The offences of a parameter list, in the order in which they are looked for. -/
def Params.offences (p : Params) : List Construct :=
  p.posOnly.map (fun _ => .posOnlyParam) ++ p.variadic.toList.map (fun v => .variadicParam v.name) ++
    p.keywordOnly.map (fun _ => .keywordOnlyParam) ++
    p.keywordVariadic.toList.map (fun v => .keywordVariadicParam v.name) ++
    p.defaults.map (fun _ => .defaultValue) ++
    (p.keywordDefaults.filter Option.isSome).map (fun _ => .defaultValue)

theorem Params.head?_offences (p : Params) : p.offences.head? = p.refused? := by
  have hdefaults : ((p.keywordDefaults.filter Option.isSome).map fun _ => Construct.defaultValue).head? =
      if p.keywordDefaults.any Option.isSome then some .defaultValue else none := by
    induction p.keywordDefaults with
    | nil => rfl
    | cons d rest ih => cases d <;> simp_all
  simp only [Params.offences, List.head?_append, hdefaults, Params.refused?]
  cases p.posOnly <;> cases p.variadic <;> cases p.keywordOnly <;> cases p.keywordVariadic <;>
    cases p.defaults <;> simp

def Keyword.offence? (ks : List Keyword) : Option Refusal :=
  (ks.find? (·.arg.isNone)).map fun k => ⟨.keywordUnpacking, k.value.span⟩

def Expr.targetOffence? (target : Expr) (span : Option Span) (construct : String → Construct) :
    Option Refusal :=
  if target.name?.isSome then none else some ⟨construct target.kind, target.span <|> span⟩

namespace Expr

mutual

/-- The first offence in an expression. -/
def offence? : Expr → Option Refusal
  | mk form span =>
    match form with
    | .name _ => none
    | .constant _ _ => none
    | .binOp left _ right => left.offence?.or right.offence?
    | .unaryOp _ e => e.offence?
    | .boolOp _ values =>
      if values.length < 2 then some ⟨.shortBoolOp, span⟩ else firstOffence? values
    | .compare left ops comparators =>
      if ops = [] ∨ ops.length ≠ comparators.length then some ⟨.unevenCompare, span⟩
      else left.offence?.or (firstOffence? comparators)
    | .call _ args keywords => (argumentOffence? args).or (Keyword.offence? keywords)
    | other => some ⟨.expression other.kind, span⟩
termination_by structural e => e

def firstOffence? : List Expr → Option Refusal
  | [] => none
  | e :: rest => e.offence?.or (firstOffence? rest)
termination_by structural es => es

def argumentOffence? : List Expr → Option Refusal
  | [] => none
  | e :: rest =>
    (if e.isStarred then some ⟨.starredArgument, e.span⟩ else e.offence?).or (argumentOffence? rest)
termination_by structural es => es

end

def anyOffence? (value : Option Expr) : Option Refusal := value.bind offence?

end Expr

/-- The offence of the targets of an assignment: there must be one, and it must be a name. -/
def Stmt.targetsOffence? (targets : List Expr) (span : Option Span) : Option Refusal :=
  match targets with
  | [target] => target.targetOffence? span .assignTarget
  | _ => some ⟨.targetCount targets.length, span⟩

def Stmt.elseOffence? (orelse : List Stmt) (loop : LoopKind) (span : Option Span) : Option Refusal :=
  if orelse.isEmpty then none else some ⟨.loopElse loop, span⟩

namespace Stmt

mutual

/-- The first offence in a statement that stands directly in a definition of the given kind. -/
def offence? (site : Site) : Stmt → Option Refusal
  | mk form span =>
    match form with
    | .functionDef _ params body _ _ =>
      (params.offences.head?.map (⟨·, span⟩)).or (firstOffence? .function body)
    | .classDef _ _ _ body _ => firstOffence? .classBody body
    | .ret value => Expr.anyOffence? value
    | .assign targets value => (targetsOffence? targets span).or value.offence?
    | .augAssign target _ value => (target.targetOffence? span .augTarget).or value.offence?
    | .annAssign target _ value _ =>
      (if site = .function then target.targetOffence? span .annTarget else none).or
        (Expr.anyOffence? value)
    | .forIn target iter body orelse =>
      (elseOffence? orelse .forLoop span).or ((target.targetOffence? span .forTarget).or
        (iter.offence?.or (firstOffence? site body)))
    | .whileDo test body orelse =>
      (elseOffence? orelse .whileLoop span).or (test.offence?.or (firstOffence? site body))
    | .ifElse test body orelse =>
      test.offence?.or ((firstOffence? site body).or (firstOffence? site orelse))
    | .expr value => value.offence?
    | .pass => none
    | .breakLoop => none
    | .continueLoop => none
    | .bare kind => some ⟨.statement kind.kind, span⟩
termination_by structural s => s

def firstOffence? (site : Site) : List Stmt → Option Refusal
  | [] => none
  | s :: rest => (s.offence? site).or (firstOffence? site rest)
termination_by structural ss => ss

end

end Stmt

/-- The first offence in a source unit. -/
def SourceUnit.offence? : SourceUnit → Option Refusal
  | .module body => Stmt.firstOffence? .module body
  | u => some ⟨.sourceUnit u.kind, none⟩

namespace Lower

variable {α β : Type} {s : State}

/-- Run from `s`, the step is refused for the offence, and succeeds if there is none. -/
def Reports (x : Lower α) (s : State) : Option Refusal → Prop
  | none => ∃ a t, Runs x s a t
  | some r => ∃ t, x s = .error (.refused r) t

private theorem reports_pure (a : α) : Reports (pure a : Lower α) s none := ⟨a, s, by simp⟩

private theorem reports_step (f : State → α × State) :
    Reports (step f) s none := ⟨(f s).1, (f s).2, by simp⟩

private theorem reports_modify (f : State → State) : Reports (modify f : Lower PUnit) s none :=
  ⟨⟨⟩, f s, by simp⟩

private theorem reports_get : Reports (get : Lower State) s none := ⟨s, s, by simp⟩

private theorem reports_refuse (construct : Construct) (span : Option Span) :
    Reports (refuse construct span : Lower α) s (some ⟨construct, span⟩) := ⟨s, rfl⟩

/-- The first offence of two steps in a row. The second one starts where the first one ended. -/
theorem reports_bind {x : Lower α} {f : α → Lower β} {o p : Option Refusal} (hx : Reports x s o)
    (hf : ∀ a t, Runs x s a t → Reports (f a) t p) : Reports (x >>= f) s (o.or p) := by
  cases o with
  | some r =>
    obtain ⟨t, ht⟩ := hx
    refine ⟨t, ?_⟩
    simp only [bind, EStateM.bind, ht]
  | none =>
    obtain ⟨a, t, ha⟩ := hx
    have hnext := hf a t ha
    cases p with
    | none =>
      obtain ⟨b, u, hb⟩ := hnext
      exact ⟨b, u, runs_bind.mpr ⟨a, t, ha, hb⟩⟩
    | some r =>
      obtain ⟨u, hu⟩ := hnext
      refine ⟨u, ?_⟩
      rw [Runs] at ha
      simp only [bind, EStateM.bind, ha, hu]

private theorem reports_after {x : Lower α} {f : α → Lower β} {p : Option Refusal}
    (hx : Reports x s none)
    (hf : ∀ a t, Runs x s a t → Reports (f a) t p) : Reports (x >>= f) s p := reports_bind hx hf

private theorem reports_before {x : Lower α} {f : α → Lower β} {o : Option Refusal} (hx : Reports x s o)
    (hf : ∀ a t, Runs x s a t → Reports (f a) t none) : Reports (x >>= f) s o := by
  have h := reports_bind hx hf
  rwa [Option.or_none] at h

/-- A block that a step leaves as the innermost one can be left. -/
theorem reports_inBlock {f : Nat → Lower α} {o : Option Refusal}
    (hf : Reports (f s.blocks.length) s.enter o)
    (hnesting : ∀ a t, Runs (f s.blocks.length) s.enter a t → t.nesting = s.enter.nesting) :
    Reports (inBlock f) s o := by
  have henter : Reports enter s none := reports_step _
  refine reports_after henter fun block t hblock => ?_
  obtain ⟨rfl, rfl⟩ := runs_enter.mp hblock
  refine reports_before hf fun a t ha => ?_
  obtain ⟨u, hu⟩ : ∃ u, t.leave? s.blocks.length = some u := by
    rw [State.leave?, hnesting a t ha]
    exact ⟨_, if_pos rfl⟩
  exact reports_after ⟨(), u, runs_leave.mpr hu⟩ fun _ _ _ => reports_pure _

private theorem reports_namedArguments (ks : List Keyword) :
    Reports (ofExcept (namedArguments ks)) s (Keyword.offence? ks) := by
  induction ks with
  | nil => exact reports_pure _
  | cons k rest ih =>
    cases hk : k.arg with
    | none =>
      simp only [namedArguments, hk, Keyword.offence?, List.find?_cons, Option.isNone_none]
      exact ⟨s, rfl⟩
    | some name =>
      have hoffence : Keyword.offence? (k :: rest) = Keyword.offence? rest := by
        simp [Keyword.offence?, hk]
      rw [hoffence]
      simp only [namedArguments, hk]
      cases hrest : namedArguments rest with
      | ok attrs =>
        rw [hrest] at ih
        cases ho : Keyword.offence? rest with
        | none => exact reports_pure _
        | some r =>
          rw [ho] at ih
          obtain ⟨t, ht⟩ := ih
          cases ht
      | error r =>
        rw [hrest] at ih
        cases ho : Keyword.offence? rest with
        | none =>
          rw [ho] at ih
          obtain ⟨a, t, ht⟩ := ih
          cases ht
        | some r' =>
          rw [ho] at ih
          exact ih

private theorem length_of_comparePairs {ops : List CmpOperator} {xs results : List Operand} {t : State}
    (hlen : xs.length = ops.length + 1) (run : Runs (comparePairs ops xs) s results t) :
    results.length = ops.length := by
  induction ops generalizing xs results s with
  | nil =>
    rw [comparePairs, runs_pure] at run
    · rw [run.1]
      rfl
    · intro op ops left right more h
      simp at h
  | cons op ops ih =>
    obtain _ | ⟨left, _ | ⟨right, more⟩⟩ := xs
    · simp at hlen
    · simp at hlen
    simp only [comparePairs, runs_bind, runs_pure] at run
    obtain ⟨x, t₁, -, rest, t₂, hrest, rfl, rfl⟩ := run
    have := ih (by simpa using hlen) hrest
    simp [this]

private theorem reports_comparePairs (ops : List CmpOperator) (xs : List Operand) :
    Reports (comparePairs ops xs) s none := by
  fun_induction comparePairs ops xs generalizing s with
  | case1 op ops left right more ih =>
    apply reports_after (reports_step _)
    intro x t _
    exact reports_after ih fun _ _ _ => reports_pure _
  | case2 => exact reports_pure _

private theorem reports_conjoin (first : Operand) (rest : List Operand) :
    Reports (conjoin first rest) s none := by
  induction rest generalizing first s with
  | nil => exact reports_pure _
  | cons next rest ih =>
    rw [conjoin]
    exact reports_after (reports_step _) fun x _ _ => ih x

private theorem length_of_operands {es : List Expr} {xs : List Operand} {t : State}
    (run : Runs (operands es) s xs t) : xs.length = es.length := by
  obtain ⟨_, flattens⟩ := flattensAll_of_operands es run
  exact flattens.length_eq

mutual

theorem reports_operand : (e : Expr) → {s : State} → Reports (operand e) s e.offence?
  | .mk (.name _) _, s => by
    rw [operand, Expr.offence?]
    exact reports_step _
  | .mk (.constant _ _) _, s => by
    simp only [operand]
    exact reports_step _
  | .mk (.binOp left _ right) _, s => by
    rw [operand, Expr.offence?]
    refine reports_bind (reports_operand left) fun _ t _ => ?_
    exact reports_before (reports_operand right) fun _ _ _ => reports_step _
  | .mk (.unaryOp _ e) _, s => by
    rw [operand, Expr.offence?]
    exact reports_before (reports_operand e) fun _ _ _ => reports_step _
  | .mk (.boolOp op values) span, s => by
    rw [Expr.offence?]
    obtain _ | ⟨first, _ | ⟨second, rest⟩⟩ := values
    · exact reports_refuse _ _
    · exact reports_refuse _ _
    rw [operand, if_neg (by simp), Expr.firstOffence?, Expr.firstOffence?]
    refine reports_bind (reports_operand first) fun _ t _ => ?_
    refine reports_bind (reports_operand second) fun _ t _ => ?_
    exact reports_after (reports_step _) fun x _ _ => reports_joinAll op rest x
  | .mk (.compare left ops comparators) span, s => by
    rw [operand, Expr.offence?]
    by_cases huneven : ops = [] ∨ ops.length ≠ comparators.length
    · rw [if_pos (by simpa using huneven), if_pos huneven]
      exact reports_refuse _ _
    rw [if_neg (by simpa using huneven), if_neg huneven]
    rw [not_or, not_not] at huneven
    refine reports_bind (reports_operand left) fun first t _ => ?_
    refine reports_before (reports_operands comparators) fun xs u hxs => ?_
    refine reports_after (reports_comparePairs ops (first :: xs)) fun results v hresults => ?_
    have hcount : results.length = ops.length := by
      apply length_of_comparePairs ?_ hresults
      rw [List.length_cons, length_of_operands hxs, huneven.2]
    cases results with
    | nil => exact absurd (List.length_eq_zero_iff.mp hcount.symm) huneven.1
    | cons result more => exact reports_conjoin result more
  | .mk (.call func args keywords) _, s => by
    rw [operand, Expr.offence?]
    refine reports_bind (reports_arguments args) fun xs t _ => ?_
    refine reports_before ?_ fun h u _ => reports_after reports_get fun _ _ _ => reports_step _
    cases keywords with
    | nil => exact reports_pure _
    | cons k rest => exact reports_before (reports_namedArguments (k :: rest)) fun _ _ _ => reports_pure _
  | .mk (.attr _ _) _, s => reports_refuse _ _
  | .mk (.subscript _ _) _, s => reports_refuse _ _
  | .mk (.starred _) _, s => reports_refuse _ _
  | .mk (.list _) _, s => reports_refuse _ _
  | .mk (.tuple _) _, s => reports_refuse _ _
  | .mk (.index _) _, s => reports_refuse _ _
  | .mk (.bare _) _, s => reports_refuse _ _

theorem reports_joinAll (op : BoolOperator) : (es : List Expr) → (joined : Operand) → {s : State} →
    Reports (joinAll op joined es) s (Expr.firstOffence? es)
  | [], joined, s => by
    rw [joinAll, Expr.firstOffence?]
    exact reports_pure joined
  | e :: rest, joined, s => by
    rw [joinAll, Expr.firstOffence?]
    refine reports_bind (reports_operand e) fun _ t _ => ?_
    exact reports_after (reports_step _) fun x _ _ => reports_joinAll op rest x

theorem reports_operands : (es : List Expr) → {s : State} →
    Reports (operands es) s (Expr.firstOffence? es)
  | [], s => by
    rw [operands, Expr.firstOffence?]
    exact reports_pure _
  | e :: rest, s => by
    rw [operands, Expr.firstOffence?]
    refine reports_bind (reports_operand e) fun _ t _ => ?_
    exact reports_before (reports_operands rest) fun _ _ _ => reports_pure _

theorem reports_arguments : (es : List Expr) → {s : State} →
    Reports (arguments es) s (Expr.argumentOffence? es)
  | [], s => by
    rw [arguments, Expr.argumentOffence?]
    exact reports_pure _
  | e :: rest, s => by
    rw [arguments, Expr.argumentOffence?]
    cases hstar : e.isStarred with
    | true =>
      rw [if_pos rfl, if_pos rfl]
      exact reports_bind (reports_refuse _ _) fun _ _ h => absurd h not_runs_refuse
    | false =>
      rw [if_neg Bool.false_ne_true, if_neg Bool.false_ne_true]
      refine reports_bind (reports_operand e) fun _ t _ => ?_
      exact reports_before (reports_arguments rest) fun _ _ _ => reports_pure _

end

private theorem reports_targetName (target : Expr) (span : Option Span) (refusal : String → Construct) :
    Reports (targetName target span refusal) s (target.targetOffence? span refusal) := by
  unfold targetName Expr.targetOffence?
  cases target.name? with
  | none => exact reports_refuse _ _
  | some name => exact reports_pure name

private theorem reports_singleTarget (targets : List Expr) (span : Option Span) :
    Reports (singleTarget targets span) s (Stmt.targetsOffence? targets span) := by
  obtain _ | ⟨target, _ | ⟨_, _⟩⟩ := targets
  · exact reports_refuse _ _
  · exact reports_targetName target span .assignTarget
  · exact reports_refuse _ _

private theorem reports_assignment (name : String) (value : Expr) (declared : Option Ty) :
    Reports (assignment name value declared) s value.offence? := by
  refine reports_before (reports_operand value) fun _ _ _ => ?_
  exact reports_after (reports_step _) fun _ _ _ => reports_pure _

private theorem reports_fieldDeclaration (target annot : Expr) (value : Option Expr) (simple : UInt8) :
    Reports (fieldDeclaration target annot value simple) s (Expr.anyOffence? value) := by
  unfold fieldDeclaration
  cases value with
  | none =>
    cases target.name? with
    | none => exact reports_pure _
    | some name => exact reports_after (reports_modify _) fun _ _ _ => reports_pure _
  | some e =>
    cases target.name? with
    | none => exact reports_before (reports_operand e) fun _ _ _ => reports_pure _
    | some name =>
      refine reports_after (reports_modify _) fun _ _ _ => ?_
      exact reports_before (reports_operand e) fun _ _ _ => reports_pure _

/-- Here alone the kind of definition matters, and it is the one that the state is in. -/
theorem reports_annotated (target annot : Expr) (value : Option Expr) (simple : UInt8)
    (span : Option Span) : Reports (annotated target annot value simple span) s
      ((if s.site = .function then target.targetOffence? span .annTarget else none).or
        (Expr.anyOffence? value)) := by
  refine reports_after reports_get fun t _ hget => ?_
  obtain ⟨rfl, rfl⟩ := runs_get.mp hget
  rename_i s
  by_cases hsite : s.site = .function
  · simp only [State.inFunction, hsite, decide_true, if_true]
    refine reports_bind (reports_targetName target span .annTarget) fun name _ _ => ?_
    cases value with
    | none => exact reports_fieldDeclaration target annot none simple
    | some e => exact reports_assignment name e _
  · simp only [State.inFunction, hsite, decide_false, Bool.false_eq_true, if_false]
    exact reports_fieldDeclaration target annot value simple

private theorem reports_exprRegion (e : Expr) : Reports (exprRegion e) s e.offence? := by
  refine reports_before (reports_inBlock ?_ ?_) fun _ _ _ => reports_pure _
  · exact reports_before (reports_operand e) fun _ _ _ => reports_modify _
  · intro u t run
    simp only [runs_bind, runs_emit] at run
    obtain ⟨x, t', hx, rfl⟩ := run
    obtain ⟨hs, flat⟩ := flat_of_operand hx
    exact flat.appended.nesting

private theorem sites_of_exprRegion {e : Expr} {slot : Slot} {t : State}
    (run : Runs (exprRegion e) s slot t) :
    t.sites = s.sites := by
  obtain ⟨-, x, u, hx, leave⟩ := runs_exprRegion run
  obtain ⟨hs, flat⟩ := flat_of_operand hx
  exact (Extends.of_loop flat leave (.inl ⟨rfl, rfl⟩)).sites

private theorem reports_region {stmts : List Stmt} {o : Option Refusal}
    (h : Reports (body stmts) s.enter o) :
    Reports (region (body stmts)) s o := by
  refine reports_before (reports_inBlock h ?_) fun _ _ _ => reports_pure _
  intro u t run
  exact (body_lowers stmts run).extension.nesting

private theorem sites_of_region {stmts : List Stmt} {slot : Slot} {t : State}
    (run : Runs (region (body stmts)) s slot t) : t.sites = s.sites := by
  obtain ⟨-, u, hbody, leave⟩ := runs_region run
  exact ((body_lowers stmts hbody).extension.region (State.left_of_leave? leave)).sites

private theorem site_congr {t : State} (h : t.sites = s.sites) : t.site = s.site := by
  rw [State.site, State.site, h]

private theorem reports_bindParams (entry : Nat) (params : List Param) :
    Reports (bindParams entry params) s none := by
  induction params generalizing s with
  | nil => exact reports_pure _
  | cons p rest ih =>
    rw [bindParams]
    refine reports_after (reports_step _) fun _ _ _ => ?_
    exact reports_after ih fun _ _ _ => reports_pure _

private theorem reports_function (name : String) (params : Params) (decorators : List Expr)
    (returns : Option Expr) (span : Option Span) {stmts : List Stmt} {o : Option Refusal}
    (h : ∀ t : State, t.site = .function → Reports (body stmts) t o) :
    Reports (function name params decorators returns span (body stmts)) s
      ((params.offences.head?.map (⟨·, span⟩)).or o) := by
  rw [Params.head?_offences]
  unfold function
  cases params.refused? with
  | some construct => exact reports_refuse _ _
  | none =>
    refine reports_after (reports_modify _) fun _ s₁ h₁ => ?_
    refine reports_after (reports_modify _) fun _ s₂ h₂ => ?_
    refine reports_before (reports_inBlock ?_ ?_) fun _ _ _ =>
      reports_after (reports_modify _) fun _ _ _ => reports_pure _
    · refine reports_after (reports_bindParams _ _) fun formals t hformals => ?_
      refine reports_before (h t ?_) fun _ _ _ => reports_pure _
      rw [State.site, (binds_of_bindParams hformals).frame.sites, runs_modify.mp h₂]
      rfl
    · intro formals t run
      simp only [runs_bind, runs_pure] at run
      obtain ⟨formals', u, hformals, _, v, hbody, -, rfl⟩ := run
      rw [(body_lowers stmts hbody).extension.nesting, (binds_of_bindParams hformals).frame.nesting]

mutual

theorem reports_statement : (st : Stmt) → {s : State} → Reports (statement st) s (st.offence? s.site)
  | .mk (.functionDef name params stmts decorators returns) span, s => by
    rw [statement, Stmt.offence?]
    apply reports_function
    intro t ht
    rw [← ht]
    exact reports_body stmts
  | .mk (.classDef name bases keywords stmts decorators) span, s => by
    rw [statement, Stmt.offence?]
    refine reports_after (reports_modify _) fun _ t ht => ?_
    refine reports_before (reports_region ?_) fun _ _ _ =>
      reports_after (reports_modify _) fun _ _ _ => reports_pure _
    have hsite : t.enter.site = .classBody := by
      rw [runs_modify.mp ht]
      rfl
    rw [← hsite]
    exact reports_body stmts
  | .mk (.ret none) span, s => by
    rw [statement]
    exact reports_pure _
  | .mk (.ret (some e)) span, s => by
    rw [statement]
    exact reports_before (reports_operand e) fun _ _ _ => reports_pure _
  | .mk (.assign targets value) span, s => by
    rw [statement, Stmt.offence?]
    exact reports_bind (reports_singleTarget targets span) fun name _ _ => reports_assignment name value none
  | .mk (.augAssign target op value) span, s => by
    rw [statement, Stmt.offence?]
    refine reports_bind (reports_targetName target span .augTarget) fun name _ _ => ?_
    refine reports_before (reports_operand value) fun _ _ _ => ?_
    exact reports_after (reports_modify _) fun _ _ _ => reports_pure _
  | .mk (.annAssign target annot value simple) span, s => by
    rw [statement, Stmt.offence?]
    exact reports_annotated target annot value simple span
  | .mk (.forIn target iter stmts orelse) span, s => by
    rw [statement, Stmt.offence?]
    cases orelse with
    | cons first others => exact reports_refuse _ _
    | nil =>
      simp only [Stmt.elseOffence?, List.isEmpty_nil, if_true, Option.none_or]
      refine reports_bind (reports_targetName target span .forTarget) fun name t ht => ?_
      obtain ⟨-, rfl⟩ := runs_targetName.mp ht
      refine reports_bind (reports_exprRegion iter) fun source t ht => ?_
      refine reports_after (reports_modify _) fun _ u hu => ?_
      refine reports_before (reports_region ?_) fun _ _ _ => reports_pure _
      have hwritten : u.sites = t.sites := by
        rw [runs_modify.mp hu]
        exact (t.write_writeThrough name).extension.sites
      rw [← site_congr (hwritten.trans (sites_of_exprRegion ht))]
      exact reports_body stmts
  | .mk (.whileDo test stmts orelse) span, s => by
    rw [statement, Stmt.offence?]
    cases orelse with
    | cons first others => exact reports_refuse _ _
    | nil =>
      simp only [Stmt.elseOffence?, List.isEmpty_nil, if_true, Option.none_or]
      refine reports_bind (reports_exprRegion test) fun condition t ht => ?_
      refine reports_before (reports_region ?_) fun _ _ _ => reports_pure _
      rw [← site_congr (sites_of_exprRegion ht)]
      exact reports_body stmts
  | .mk (.ifElse test yes no) span, s => by
    rw [statement, Stmt.offence?]
    refine reports_bind (reports_operand test) fun x t ht => ?_
    obtain ⟨hs, flat⟩ := flat_of_operand ht
    have hsites := flat.appended.sites
    refine reports_bind (reports_region ?_) fun slot u hu => ?_
    · rw [← site_congr hsites]
      exact reports_body yes
    cases no with
    | nil => exact reports_pure _
    | cons first others =>
      refine reports_before (reports_region ?_) fun _ _ _ => reports_pure _
      rw [← site_congr ((sites_of_region hu).trans hsites)]
      exact reports_body (first :: others)
  | .mk (.expr value) span, s => by
    rw [statement, Stmt.offence?]
    exact reports_before (reports_operand value) fun _ _ _ => reports_pure _
  | .mk .pass span, s => reports_pure _
  | .mk .breakLoop span, s => reports_pure _
  | .mk .continueLoop span, s => reports_pure _
  | .mk (.bare kind) span, s => reports_refuse _ _

theorem reports_body : (stmts : List Stmt) → {s : State} →
    Reports (body stmts) s (Stmt.firstOffence? s.site stmts)
  | [], s => by
    rw [body, Stmt.firstOffence?]
    exact reports_pure _
  | st :: rest, s => by
    rw [body, Stmt.firstOffence?]
    refine reports_bind (reports_statement st) fun op t ht => ?_
    have hemitted : (t.emit op).sites = s.sites := (statement_lowers st ht .nil).extension.sites
    refine reports_after (reports_modify _) fun _ u hu => ?_
    rw [← site_congr hemitted, ← runs_emit.mp hu]
    exact reports_body rest

end

private theorem reports_sourceUnit (u : SourceUnit) : Reports (sourceUnit u) {} u.offence? := by
  cases u with
  | module stmts =>
    refine reports_before (reports_region (reports_body stmts)) fun _ _ _ => ?_
    exact reports_after (reports_modify _) fun _ _ _ => reports_step _
  | interactive => exact reports_refuse _ _
  | expression => exact reports_refuse _ _
  | functionType => exact reports_refuse _ _

end Lower

namespace SourceUnit

variable {u : SourceUnit}

theorem lower_of_no_offence (h : u.offence? = none) : ∃ op, u.lower = .ok op := by
  have hreports := Lower.reports_sourceUnit u
  rw [h] at hreports
  obtain ⟨op, t, ht⟩ := hreports
  rw [Lower.Runs] at ht
  exact ⟨op, by simp only [lower, lowerLogged, EStateM.run, ht]⟩

private theorem lower_of_offence {r : Refusal} (h : u.offence? = some r) :
    u.lower = .error (.refused r) := by
  have hreports := Lower.reports_sourceUnit u
  rw [h] at hreports
  obtain ⟨t, ht⟩ := hreports
  simp only [lower, lowerLogged, EStateM.run, ht]

end SourceUnit

/-- A source unit is lowered exactly if the checker finds nothing in it, and the one error of lowering is
the refusal of the first offence that the checker finds. -/
theorem lower_reports_first_offence (u : SourceUnit) :
    ((∃ op, u.lower = .ok op) ↔ u.offence? = none) ∧
      ∀ e, u.lower = .error e ↔ ∃ r, u.offence? = some r ∧ e = .refused r := by
  cases ho : u.offence? with
  | none =>
    obtain ⟨op, hok⟩ := SourceUnit.lower_of_no_offence ho
    simp [hok]
  | some r =>
    have herror := SourceUnit.lower_of_offence ho
    simp [herror, eq_comm]

-- What counts is the innermost definition: a field may be declared in the class of a function, and may
-- not in the function of a class.
example : Stmt.offence? .classBody (.ofForm (.functionDef "f" {} [.ofForm (.annAssign
      (.attr (.ofName "self") "x") (.ofName "int") none 0)] [] none)) =
    some ⟨.annTarget "Attribute", none⟩ := rfl

example : Stmt.offence? .function (.ofForm (.classDef "c" [] [] [.ofForm (.annAssign
      (.attr (.ofName "self") "x") (.ofName "int") none 0)] [])) = none := rfl

end RegionIR
