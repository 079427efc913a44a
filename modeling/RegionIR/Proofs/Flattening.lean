import RegionIR.Proofs.Acceptance
import RegionIR.Proofs.Pledges
import RegionIR.Proofs.Reach
/-!
# Flattening computes expressions

From every state that lowering comes to, an expression with a meaning is lowered to a straight line in
the current block. Run on any machine, the line leaves the value of the expression under the id that
lowering returns, and touches nothing but the ids that it has drawn.
-/
namespace RegionIR

open Lower (Runs)
open Operator

universe u

/-- The opcodes of an expression, in the order in which its operators stand: operands come before the
operator that takes them, and each of them is computed once. A name is an operator only if its variable
is in memory. -/
def Expr.opcodes (phase : String → Phase) (e : Expr) : List String :=
  (e.temporaries phase false).map Temporary.opcode

private theorem Flattens.opcodes {e : Expr} {s t : State} {hs : List Head} {x : Operand}
    (flattens : Flattens e s hs x t) : hs.map Head.opcode = e.opcodes s.phases :=
  (flattens.pledged (V := fun _ => True) (fun _ _ _ _ => trivial) (fun _ _ => trivial) false).made

namespace Expr

variable {D : Type u} (I : Interp D) {env : String → Option D}

mutual

theorem exists_eval : (e : Expr) → e.supported = true → (∀ x ∈ e.reads, (env x).isSome) →
    ∃ d, e.eval I env = some d
  | .mk (.name id) span, _, h => Option.isSome_iff_exists.mp (h id (by simp [reads]))
  | .mk (.constant value kind) span, _, _ => ⟨I.constant value kind, rfl⟩
  | .mk (.binOp left op right) span, hs, h => by
    rw [supported, Bool.and_eq_true] at hs
    rw [reads, List.forall_mem_append] at h
    obtain ⟨a, ha⟩ := exists_eval left hs.1 h.1
    obtain ⟨b, hb⟩ := exists_eval right hs.2 h.2
    exact ⟨I.binary op a b, by rw [eval_binOp, ha, hb]; rfl⟩
  | .mk (.unaryOp op e) span, hs, h => by
    obtain ⟨a, ha⟩ := exists_eval e hs h
    exact ⟨I.unary op a, by rw [eval_unaryOp, ha]; rfl⟩
  | .mk (.boolOp op values) span, hs, h => by
    rw [supported, Bool.and_eq_true, decide_eq_true_eq] at hs
    obtain ⟨ds, hds, hlen⟩ := exists_evalAll values hs.2 h
    obtain _ | ⟨d, ds⟩ := ds
    · simp only [List.length_nil] at hlen
      omega
    · exact ⟨ds.foldl (I.connective op) d, by rw [eval_boolOp, hds]; rfl⟩
  | .mk (.compare left ops comparators) span, hs, h => by
    rw [supported, Bool.and_eq_true, Bool.and_eq_true, decide_eq_true_eq] at hs
    obtain ⟨⟨hpos, hlen⟩, hleft, hothers⟩ := hs
    rw [reads, List.forall_mem_append] at h
    obtain ⟨a, ha⟩ := exists_eval left hleft h.1
    obtain ⟨ds, hds, hcount⟩ := exists_evalAll comparators hothers h.2
    obtain _ | ⟨first, ops⟩ := ops
    · exact absurd rfl hpos
    obtain _ | ⟨b, ds⟩ := ds
    · simp [hcount.symm] at hlen
    refine ⟨(I.neighbours ops (b :: ds)).foldl (I.connective .and) (I.comparison first a b), ?_⟩
    rw [eval_compare, evalAll_cons, ha, hds]
    rfl
  | .mk (.call func args keywords) span, hs, h => by
    rw [supported, Bool.and_eq_true] at hs
    obtain ⟨ds, hds, -⟩ := exists_evalAll args hs.1 h
    exact ⟨I.call func.written (keywords.map Keyword.written) ds, by rw [eval_call, hds]; rfl⟩
  | .mk (.attr _ _) span, hs, _ => by simp [supported] at hs
  | .mk (.subscript _ _) span, hs, _ => by simp [supported] at hs
  | .mk (.starred _) span, hs, _ => by simp [supported] at hs
  | .mk (.list _) span, hs, _ => by simp [supported] at hs
  | .mk (.tuple _) span, hs, _ => by simp [supported] at hs
  | .mk (.index _) span, hs, _ => by simp [supported] at hs
  | .mk (.bare _) span, hs, _ => by simp [supported] at hs

theorem exists_evalAll : (es : List Expr) → supportedAll es = true →
    (∀ x ∈ readsAll es, (env x).isSome) → ∃ ds, evalAll I env es = some ds ∧ ds.length = es.length
  | [], _, _ => ⟨[], rfl, rfl⟩
  | e :: rest, hs, h => by
    rw [supportedAll, Bool.and_eq_true] at hs
    rw [readsAll, List.forall_mem_append] at h
    obtain ⟨d, hd⟩ := exists_eval e hs.1 h.1
    obtain ⟨ds, hds, hlen⟩ := exists_evalAll rest hs.2 h.2
    exact ⟨d :: ds, by rw [evalAll_cons, hd, hds]; rfl, by simp [hlen]⟩

end

end Expr

/-- What a name stands for on a machine: the memory slot of its variable, the value that the variable
is, or else the value with the plain id of the name. -/
def State.denotes {D : Type u} (s : State) (m : Machine D) (x : String) : Option D :=
  match s.home x with
  | .memory => m.memory x
  | .pending _ value => m.values value
  | .undefined => m.values (.named x)

private theorem State.Reached.ready {D : Type u} {s : State} (reached : s.Reached) (m : Machine D)
    {names : List String} (plain : ∀ x ∈ names, PlainName x) : Ready s (s.denotes m) m names where
  loaded x _ hmem := by rw [State.denotes, hmem]
  held x hx hne := by
    rw [State.denotes]
    cases hhome : s.home x with
    | undefined =>
      have hnamed : ValueId.OfVar x 0 s.counter (.named x) := .inl rfl
      exact ⟨rfl, hnamed.below (plain x hx)⟩
    | pending block value =>
      have hfind := Scope.find?_of_home_pending _ _ _ _ hhome
      exact ⟨rfl, (reached.tidy.scope.ids x block value hfind).below (plain x hx)⟩
    | memory => exact absurd hhome hne

namespace Lower

private theorem exists_runs_of_supported {e : Expr} (supported : e.supported = true) (s : State) :
    ∃ x t, Runs (operand e) s x t := by
  have reports := reports_operand e (s := s)
  rw [Expr.offence?_of_supported e supported] at reports
  exact reports

/-- An expression with a meaning, lowered in any state that lowering comes to, computes its value. Only
the current block changes, by operators that stand in the order of the expression with one for each of
its parts. On a machine where the names it reads have values they run through, leave the memory alone and
give values only to ids with a number that has been drawn here, and then the returned id has the value
of the expression. -/
theorem operand_computes_value {e : Expr} {s : State} (reached : s.Reached)
    (opened : s.current < s.blocks.length) (supported : e.supported = true)
    (plain : ∀ x ∈ e.reads, PlainName x) :
    ∃ (x : Operand) (t : State) (hs : List Head), Runs (operand e) s x t ∧
      t.blocks.contents s.current = s.blocks.contents s.current ++ hs.map (Staged.ofHead ·) ∧
      (∀ b, b ≠ s.current → t.blocks.contents b = s.blocks.contents b) ∧
      t.blocks.length = s.blocks.length ∧
      hs.map Head.opcode = e.opcodes s.phases ∧
      ∀ {D : Type u} (I : Interp D) (m : Machine D), (∀ y ∈ e.reads, (s.denotes m y).isSome) →
        ∃ m' d, runAll I m (hs.map leaf) = some (m', .next) ∧ m'.memory = m.memory ∧
          m'.trace = m.trace ∧
          (∀ v, (∀ n, v.counter? = some n → n < s.counter ∨ t.counter ≤ n) → m'.values v = m.values v) ∧
          e.eval I (s.denotes m) = some d ∧ m'.values x.1 = some d := by
  obtain ⟨x, t, run⟩ := exists_runs_of_supported supported s
  obtain ⟨hs, flattens⟩ := flattens_of_operand e run
  have happ := flattens.appended
  refine ⟨x, t, hs, run, happ.contents_current opened, fun b hb => happ.contents_of_ne hb,
    happ.length_blocks, flattens.opcodes, ?_⟩
  intro D I m hvalues
  obtain ⟨d, hd⟩ := e.exists_eval I supported hvalues
  obtain ⟨-, ⟨m', hrun, later, hvalue⟩ | ⟨-, hnone⟩⟩ :=
    flattens.yields (I := I) (reached.ready m plain)
  · exact ⟨m', d, hrun, later.memory, later.trace, later.values, hd, hvalue.trans hd⟩
  · rw [hd] at hnone
    cases hnone

end Lower

def mixedState : State :=
  (State.initial.assign "limit" (.named "n", .unknown) none).2.writeThrough "total"

/-- `total <= limit < n or full(total, bound=limit)`. -/
def rangeCheck : Expr :=
  .ofForm (.boolOp .or [.ofForm (.compare (.ofName "total") [.ltE, .lt] [.ofName "limit", .ofName "n"]),
    .call (.ofName "full") [.ofName "total"] [.named "bound" (.ofName "limit")]])

theorem rangeCheck_computes_value : mixedState.Reached ∧ mixedState.current < mixedState.blocks.length ∧
    rangeCheck.supported = true ∧ (∀ x ∈ rangeCheck.reads, PlainName x) ∧
    ∃ (x : Operand) (t : State) (hs : List Head), Runs (Lower.operand rangeCheck) mixedState x t ∧
      hs.map Head.opcode =
        ["py.load", "py.compare", "py.compare", "py.boolOp", "py.load", "py.call", "py.boolOp"] ∧
      ∀ (I : Interp Nat) (m : Machine Nat), m.memory "total" = some 1 →
        m.values (.named "limit") = some 2 → m.values (.named "n") = some 3 →
        ∃ m', runAll I m (hs.map leaf) = some (m', .next) ∧ m'.memory = m.memory ∧
          m'.values x.1 = some (I.connective .or
            (I.connective .and (I.comparison .ltE 1 2) (I.comparison .lt 2 3))
            (I.call "full" ["bound=limit"] [1])) := by
  have reached : mixedState.Reached := (State.Reached.start.enter.assign _ _ _).writeThrough _
  have opened : mixedState.current < mixedState.blocks.length := by decide
  have supported : rangeCheck.supported = true := by decide
  have hreads : rangeCheck.reads = ["total", "limit", "n", "total"] := rfl
  have plain : ∀ x ∈ rangeCheck.reads, PlainName x := by simp [hreads, PlainName]
  refine ⟨reached, opened, supported, plain, ?_⟩
  obtain ⟨x, t, hs, run, -, -, -, hops, hvalue⟩ :=
    Lower.operand_computes_value.{0} reached opened supported plain
  refine ⟨x, t, hs, run, hops.trans (by decide), ?_⟩
  intro I m htotal hlimit hn
  have henv : mixedState.denotes m "total" = some 1 ∧ mixedState.denotes m "limit" = some 2 ∧
      mixedState.denotes m "n" = some 3 := ⟨htotal, hlimit, hn⟩
  obtain ⟨m', d, hrun, hmemory, -, -, hd, hx⟩ := hvalue I m (by simp [hreads, henv])
  refine ⟨m', hrun, hmemory, hx.trans (hd.symm.trans ?_)⟩
  have hcallee : (Expr.mk (.name "full") none).written = "full" := by decide
  have hbound : (Keyword.named "bound" (.mk (.name "limit") none)).written = "bound=limit" := by decide
  simp [rangeCheck, Expr.call, Expr.ofForm, Expr.ofName, Expr.eval, Expr.evalAll, Interp.joined,
    Interp.neighbours, henv, hcallee, hbound]

end RegionIR
