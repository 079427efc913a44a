import RegionIR.Proofs.Ledger
import RegionIR.Proofs.Rows
/-!
# Operands and their types

Where the operands of a straight line come from, and which type the operand of an expression has.
-/
namespace RegionIR

/-- The operand that a read gives while its variable is not in memory. -/
def State.operandOf (s : State) (name : String) : Operand :=
  ((s.home name).valueOf name, s.typeOf name)

namespace Straight

variable {s t : State} {reads : List String} {hs : List Head} {pool : List Operand}

private theorem operandOf (line : Straight s reads hs pool t) (name : String) :
    t.operandOf name = s.operandOf name := by
  have happ := line.flat.appended
  simp only [State.operandOf, State.typeOf, State.declared?, happ.home, happ.types]

theorem paired (line : Straight s reads hs pool t) :
    ∀ h ∈ hs, (Row.operator h).Paired := by
  induction line with
  | start => simp
  | load _ _ ih =>
    intro h hh
    rcases List.mem_append.mp hh with hh | hh
    · exact ih h hh
    · rw [List.mem_singleton.mp hh]
      exact ⟨rfl, rfl⟩
  | value _ _ ih => exact ih
  | op _ _ takes _ ih =>
    intro h hh
    rcases List.mem_append.mp hh with hh | hh
    · exact ih h hh
    · rw [List.mem_singleton.mp hh]
      exact ⟨by simp [Head.withResult, takes.args, takes.types], rfl⟩
  | drop _ _ _ ih => exact ih

/-- An operand that a line takes or leaves is that of a variable it reads, or a result of the line. -/
theorem sources (line : Straight s reads hs pool t) :
    ∀ p ∈ hs.flatMap Head.operands ++ pool,
      (∃ x ∈ reads, s.home x ≠ .memory ∧ p = s.operandOf x) ∨ p ∈ hs.flatMap Head.outcomes := by
  induction line with
  | start => simp
  | @load reads hs pool t name line home ih =>
    intro p hp
    have hcases : p = (.versioned name t.counter, t.typeOf name) ∨
        p ∈ hs.flatMap Head.operands ++ pool := by
      simpa [Head.operands, loadHead, or_left_comm] using hp
    rcases hcases with rfl | hp
    · exact .inr (by simp [Head.outcomes, loadHead, Head.withResult])
    · rcases ih p hp with ⟨x, hx, hsource⟩ | hresult
      · exact .inl ⟨x, List.mem_append_left _ hx, hsource⟩
      · exact .inr (by rw [List.flatMap_append]; exact List.mem_append_left _ hresult)
  | @value reads hs pool t name line home ih =>
    intro p hp
    have hcases : p = t.operandOf name ∨ p ∈ hs.flatMap Head.operands ++ pool := by
      simpa [State.operandOf, or_left_comm] using hp
    rcases hcases with rfl | hp
    · rw [line.operandOf]
      rw [line.flat.appended.home] at home
      exact .inl ⟨name, by simp, home, rfl⟩
    · rcases ih p hp with ⟨x, hx, hsource⟩ | hresult
      · exact .inl ⟨x, List.mem_append_left _ hx, hsource⟩
      · exact .inr hresult
  | @op reads hs pool xs t h ty line computes takes known ih =>
    intro p hp
    have hlast : (h.withResult (.numbered t.counter) ty).operands = xs := takes.operands
    have hcases : p = (.numbered t.counter, ty) ∨ p ∈ hs.flatMap Head.operands ++ pool := by
      rw [List.flatMap_append, List.flatMap_singleton, hlast] at hp
      simp only [List.mem_append, List.mem_cons] at hp ⊢
      rcases hp with (hp | hp) | hp | hp
      · exact .inr (.inl hp)
      · exact .inr (.inr (known p hp))
      · exact .inl hp
      · exact .inr (.inr hp)
    rcases hcases with rfl | hp
    · exact .inr (by simp [Head.outcomes, Head.withResult])
    · rcases ih p hp with hsource | hresult
      · exact .inl hsource
      · exact .inr (by rw [List.flatMap_append]; exact List.mem_append_left _ hresult)
  | drop line known used ih =>
    intro p hp
    apply ih p
    rcases List.mem_append.mp hp with hp | hp
    · exact List.mem_append_left _ hp
    · exact List.mem_append_right _ (known p hp)

theorem uses (line : Straight s reads hs pool t) :
    ∀ x ∈ reads, s.home x ≠ .memory → s.operandOf x ∈ hs.flatMap Head.operands ++ pool := by
  induction line with
  | start => simp
  | @load reads hs pool t name line home ih =>
    intro x hx hne
    rw [line.flat.appended.home] at home
    rcases List.mem_append.mp hx with hx | hx
    · have hmem := ih x hx hne
      simp only [List.flatMap_append, List.mem_append, List.mem_cons] at hmem ⊢
      tauto
    · rw [List.mem_singleton.mp hx] at hne
      exact absurd home hne
  | @value reads hs pool t name line home ih =>
    intro x hx hne
    rcases List.mem_append.mp hx with hx | hx
    · have hmem := ih x hx hne
      simp only [List.mem_append, List.mem_cons] at hmem ⊢
      tauto
    · rw [List.mem_singleton.mp hx, ← line.operandOf]
      exact List.mem_append_right _ List.mem_cons_self
  | op line computes takes known ih =>
    intro x hx hne
    have hmem := ih x hx hne
    simp only [List.flatMap_append, List.mem_append, List.mem_cons] at hmem ⊢
    tauto
  | drop line known used ih =>
    intro x hx hne
    rcases List.mem_append.mp (ih x hx hne) with hmem | hmem
    · exact List.mem_append_left _ hmem
    · rcases used _ hmem with hleft | ⟨h, hh, htaken⟩
      · exact List.mem_append_right _ hleft
      · exact List.mem_append_left _ (List.mem_flatMap.mpr ⟨h, hh, htaken⟩)

end Straight

variable {s t : State} {x : Operand} {hs : List Head}

private theorem State.emitResult_ty {h : Head} {ty : Ty} (emit : s.emitResult h ty = (x, t)) :
    x.2 = ty ∧ t.types = s.types := by
  rw [State.emitResult, Prod.mk.injEq] at emit
  rw [← emit.1, ← emit.2]
  exact ⟨rfl, rfl⟩

private theorem Compares.ty {ops : List CmpOperator} {xs more : List Operand} {result : Operand}
    (pairs : Compares ops xs s hs (result :: more) t) : result.2 = .unknown := by
  cases pairs with
  | last emit => exact (State.emitResult_ty emit).1
  | cons emit _ => exact (State.emitResult_ty emit).1

private theorem Conjoins.ty {first : Operand} {more : List Operand}
    (joined : Conjoins first more s hs x t) (hfirst : first.2 = .unknown) : x.2 = .unknown := by
  induction joined with
  | nil => exact hfirst
  | cons emit _ ih => exact ih (State.emitResult_ty emit).1

private theorem FlattensJoined.ty {op : BoolOperator} {j : Operand} {es : List Expr}
    (joined : FlattensJoined op j es s hs x t) (hj : es = [] → j.2 = .unknown) : x.2 = .unknown := by
  induction es generalizing s hs j with
  | nil =>
    cases joined
    exact hj rfl
  | cons e rest ih =>
    cases joined with
    | cons _ emit more => exact ih more fun _ => (State.emitResult_ty emit).1

private theorem Flattens.ty {e : Expr} (flattens : Flattens e s hs x t) : x.2 = e.tyIn t.declared? := by
  cases flattens with
  | load home => rw [State.read_memory home]; rfl
  | value => rfl
  | constant emit => exact (State.emitResult_ty emit).1
  | binOp _ _ emit => exact (State.emitResult_ty emit).1
  | unaryOp _ emit => exact (State.emitResult_ty emit).1
  | boolOp _ joined => exact joined.ty (by simp)
  | compare _ _ _ pairs joined => exact joined.ty pairs.ty
  | @call func _ _ _ _ s₁ _ _ _ _ _ _ _ emit =>
    obtain ⟨hty, htypes⟩ := State.emitResult_ty emit
    have hdeclared : t.declared? = s₁.declared? := by
      funext name
      rw [State.declared?, htypes]
      rfl
    rw [hty, hdeclared]
    rfl

theorem Lower.ty_of_operand {e : Expr} (run : Runs (operand e) s x t) : x.2 = e.tyIn t.declared? := by
  obtain ⟨_, flattens⟩ := flattens_of_operand e run
  exact flattens.ty

end RegionIR
