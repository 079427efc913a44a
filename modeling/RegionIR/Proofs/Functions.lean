import RegionIR.Proofs.Growth
/-!
# Functions and their operators

The function definitions of a program, nested ones included, and the function operators of its tree
stand in the same order. Each operator holds what the body of its definition grows.
-/
namespace RegionIR

open Lower (Runs)

/-- A function definition, as far as its meaning goes. -/
structure Function where
  name : String
  params : Params
  body : List Stmt

namespace Stmt

mutual

/-- The function definitions in a statement, each before those in its body. -/
def functions : Stmt → List Function
  | mk form _ =>
    match form with
    | .functionDef name params body _ _ => ⟨name, params, body⟩ :: functionsAll body
    | .classDef _ _ _ body _ => functionsAll body
    | .forIn _ _ body orelse => functionsAll body ++ functionsAll orelse
    | .whileDo _ body orelse => functionsAll body ++ functionsAll orelse
    | .ifElse _ yes no => functionsAll yes ++ functionsAll no
    | _ => []
termination_by structural s => s

def functionsAll : List Stmt → List Function
  | [] => []
  | s :: rest => functions s ++ functionsAll rest
termination_by structural ss => ss

end

end Stmt

namespace Operator

def isFunction (op : Operator) : Bool := op.head.dialect = .builtin ∧ op.head.name = "func"

def functions (op : Operator) : List Operator := op.walk.filter isFunction

end Operator

open Operator

/-- An operator that holds what the body of a function definition grows. -/
inductive Emitted (f : Function) : Operator → Prop
  | intro {s t u : State} {ty : Ty} {formals : List (ValueId × Ty)} {inside : List Operator}
      {own : Head} (placed : s.Placed)
      (bind : Runs (Lower.bindParams s.blocks.length f.params.plain)
        ((s.declare f.name ty).pushFunction.enter) formals t)
      (inner : Grows u.scope.memory t f.body u inside) :
      Emitted f (.mk own [.single (some ⟨entryLabel, formals⟩) inside])

private theorem Simple.functions_eq_nil {s t : State} {st : Stmt} {own : Head} (h : Simple s st own t) :
    st.functions = [] := by
  cases h <;> rfl

private theorem Opens.functions_eq {s t : State} {st : Stmt} {own : Head} {slots : List Slot}
    {bodies : List (List Stmt)} {close : State → State} (h : Opens s st own slots bodies t close) :
    st.functions = bodies.flatMap Stmt.functionsAll := by
  cases h with
  | @branch _ _ yes no _ _ _ =>
    cases no with
    | nil => simp [Stmt.functions, branches, Stmt.functionsAll]
    | cons first others => simp [Stmt.functions, branches]
  | whileDo _ => simp [Stmt.functions, Stmt.functionsAll]
  | forIn _ => simp [Stmt.functions, Stmt.functionsAll]
  | classDef => simp [Stmt.functions]

private theorem filter_leaves {hs : List Head} (h : ∀ x ∈ hs, x.dialect = .py) :
    (hs.map leaf).filter isFunction = [] := by
  rw [List.filter_eq_nil_iff]
  intro op hop
  obtain ⟨x, hx, rfl⟩ := List.mem_map.mp hop
  simp [isFunction, leaf, head, h x hx]

theorem Flat.dialect {s t : State} {reads : List String} {hs : List Head} {pool : List ValueId}
    (flat : Flat s reads hs pool t) : ∀ h ∈ hs, h.dialect = .py := by
  induction flat with
  | start => simp
  | load flat home ih => simpa [or_imp, forall_and, loadHead] using ih
  | value flat home ih => exact ih
  | op flat computes known ih => simpa [or_imp, forall_and, computes.dialect] using ih
  | drop flat known used ih => exact ih

theorem Late.dialect (ls : List Late) : ∀ h ∈ ls.map Late.head, h.dialect = .py := by
  intro h hh
  obtain ⟨l, -, rfl⟩ := List.mem_map.mp hh
  rfl

theorem Settles.dialect {m t : State} {args : List ValueId} {writes : List Act} {own : Head}
    (h : Settles m args writes own t) : own.dialect = .py := by
  cases h with
  | plain quiet _ => exact quiet.dialect
  | define dialect _ _ _ _ => exact dialect
  | store _ _ _ => rfl
  | through quiet _ _ => exact quiet.dialect

theorem Opening.no_functions {s m : State} {pre : List Act} {hs : List Head} {slots : List Slot}
    {regions : List Region} {args : List ValueId} (h : Opening s pre hs slots regions args m) :
    (∀ x ∈ hs, x.dialect = .py) ∧ (Walk.operators.regions () regions).filter isFunction = [] := by
  cases h with
  | inline flat => exact ⟨flat.dialect, rfl⟩
  | @loop _ hs x _ _ _ _ flat _ _ =>
    refine ⟨by simp, ?_⟩
    rw [yieldRegion, Walk.operators_single, Walk.operators_leaves, Walk.regions_nil, List.append_nil]
    refine filter_leaves ?_
    intro h hh
    rcases List.mem_append.mp hh with hh | hh
    · exact flat.dialect h hh
    · simp only [List.mem_singleton] at hh
      rw [hh]
      rfl

mutual

/-- The function definitions in statements and the function operators that they grow correspond one to
one, in order. -/
theorem Grows.functions : ∀ {Z : List String} {s s' : State} {stmts : List Stmt} {ops : List Operator},
    Grows Z s stmts s' ops → s.Placed →
    List.Forall₂ Emitted (Stmt.functionsAll stmts) ((Walk.operators.items () ops).filter isFunction)
  | _, _, _, _, _, .nil, _ => .nil
  | _, s, s', _, _, @Grows.simple _ _ t _ st own stmts hs ops one gains rest, placed => by
    obtain ⟨s₀, reads, hs', args, m, writes, ls, rfl, same, flat, settles, -, -⟩ :=
      one.gained placed gains
    have hrest := rest.functions (placed.extension (one.extension.emitted (.ofHead own)))
    have hwalk : (Walk.operators.items ()
        ((hs' ++ ls.map Late.head).map leaf ++ leaf own :: ops)).filter isFunction =
        (Walk.operators.items () ops).filter isFunction := by
      have hcons : leaf own :: ops = [own].map leaf ++ ops := rfl
      rw [hcons, ← List.append_assoc, ← List.map_append, Walk.items_append, Walk.operators_leaves,
        List.filter_append, filter_leaves, List.nil_append]
      intro x hx
      rcases List.mem_append.mp hx with hx | hx
      · rcases List.mem_append.mp hx with hx | hx
        · exact flat.dialect x hx
        · exact Late.dialect ls x hx
      · rw [List.mem_singleton.mp hx]
        exact settles.dialect
    rw [Stmt.functionsAll, one.functions_eq_nil, List.nil_append, hwalk]
    exact hrest
  | _, s, s', _, _, @Grows.compound _ _ t m u _ st own slots more bodies close pre hs regions others
      stmts ls ops opens opened inner retro rest, placed => by
    have hopen := opened.opening.extension
    have hnext := opened.emitted inner.lowers.extension (.ofHead own (slots ++ more))
    have hrest := rest.functions (placed.extension hnext)
    have hinner := inner.functions ((placed.extension hopen).sameVars opened.start)
    obtain ⟨hline, hregions⟩ := opened.opening.no_functions
    have hwalk : (Walk.operators.items () ((hs ++ ls.map Late.head).map leaf ++
        .mk own (regions ++ others) :: ops)).filter isFunction =
        (Walk.operators.regions () others).filter isFunction ++
          (Walk.operators.items () ops).filter isFunction := by
      rw [Walk.items_append, Walk.operators_leaves, Walk.operators_cons, walk_mk, Walk.regions_append,
        List.cons_append, List.filter_append, List.filter_cons_of_neg, List.filter_append,
        List.filter_append, hregions, filter_leaves, List.nil_append, List.nil_append]
      · intro x hx
        rcases List.mem_append.mp hx with hx | hx
        · exact hline x hx
        · exact Late.dialect ls x hx
      · simp [isFunction, head, opened.quiet.dialect]
    rw [Stmt.functionsAll, opens.functions_eq, hwalk]
    exact List.rel_append hinner hrest
  | _, s, s', _, _, @Grows.function _ _ t u v _ name params body stmts decorators returns span formals
      inside ops accepted bind inner leave rest, placed => by
    have binds := Lower.binds_of_bindParams bind
    have left := State.left_of_leave? leave
    have hnext := binds.emitted inner.lowers.extension left
      (.ofHead (functionHead name decorators formals (annotatedTy? returns))
        [⟨s.blocks.length, some ⟨entryLabel, formals⟩⟩])
    have hrest := rest.functions (placed.extension hnext)
    have hinner := inner.functions (binds.placed placed)
    have hhead : isFunction (.mk (functionHead name decorators formals (annotatedTy? returns))
        [.single (some ⟨entryLabel, formals⟩) inside]) = true := by
      unfold functionHead
      dsimp only
      split <;> rfl
    rw [Stmt.functionsAll, Stmt.functions, Walk.operators_cons, walk_mk, Walk.operators_single,
      Walk.regions_nil, List.append_nil, List.cons_append, List.cons_append,
      List.filter_cons_of_pos hhead, List.filter_append]
    exact .cons (.intro placed bind inner) (List.rel_append hinner hrest)

theorem GrowsBodies.functions : ∀ {Z : List String} {s s' : State} {bodies : List (List Stmt)}
    {slots : List Slot} {regions : List Region}, GrowsBodies Z s bodies slots s' regions → s.Placed →
    List.Forall₂ Emitted (bodies.flatMap Stmt.functionsAll)
      ((Walk.operators.regions () regions).filter isFunction)
  | _, _, _, _, _, _, .nil, _ => .nil
  | _, s, s', _, _, _, @GrowsBodies.cons _ _ t u _ stmts bodies slots ops ls regions inner leave late
      rest, placed => by
    have hregion := inner.lowers.extension.region (State.left_of_leave? leave)
    have hinner := inner.functions placed.enter
    have hrest := rest.functions (placed.extension (hregion.weaken _))
    rw [List.flatMap_cons, Walk.operators_single, Walk.items_append, Walk.operators_leaves,
      List.filter_append, List.filter_append, filter_leaves (Late.dialect ls), List.append_nil]
    exact List.rel_append hinner hrest

end

theorem SourceUnit.functions_of_lower {stmts : List Stmt} {op : Operator}
    (h : (SourceUnit.module stmts).lower = .ok op) :
    List.Forall₂ Emitted (Stmt.functionsAll stmts) op.functions := by
  obtain ⟨t, ops, grows, rfl⟩ := grows_of_lower h
  have hfunctions := grows.functions State.initial_placed
  have hwalk : functions (.mk (Head.builtin "module") [.single none ops]) =
      (Walk.operators.items () ops).filter isFunction := by
    rw [functions, walk_mk, Walk.operators_single, Walk.regions_nil, List.append_nil, List.filter_cons_of_neg]
    simp [isFunction, head]
  rw [hwalk]
  exact hfunctions

end RegionIR
