import Mathlib
import RegionIR.Compile
/-!
# Runs of lowering that succeed

`Lower.Runs x s a s'` says that the step `x`, started in the state `s`, gives `a` and leaves the state
`s'`. There is one rule for each way a step is put together, so that no later proof opens the monad.
-/
namespace RegionIR

namespace Lower

variable {α β : Type}

/-- The step succeeds from `s` with the result `a` in the state `s'`. -/
def Runs (x : Lower α) (s : State) (a : α) (s' : State) : Prop := x s = .ok a s'

@[simp] theorem runs_pure {a b : α} {s s' : State} :
    Runs (pure a : Lower α) s b s' ↔ b = a ∧ s' = s := by
  simp only [Runs, pure, EStateM.pure, EStateM.Result.ok.injEq]
  exact ⟨fun h => ⟨h.1.symm, h.2.symm⟩, fun h => ⟨h.1.symm, h.2.symm⟩⟩

@[simp] theorem runs_bind {x : Lower α} {f : α → Lower β} {s s'' : State} {b : β} :
    Runs (x >>= f) s b s'' ↔ ∃ a s', Runs x s a s' ∧ Runs (f a) s' b s'' := by
  simp only [Runs, bind, EStateM.bind]
  cases x s with
  | ok a s' =>
    simp only [EStateM.Result.ok.injEq]
    constructor
    · intro h
      exact ⟨a, s', ⟨rfl, rfl⟩, h⟩
    · rintro ⟨_, _, ⟨rfl, rfl⟩, h⟩
      exact h
  | error e s' => simp

@[simp] theorem runs_step {f : State → α × State} {s s' : State} {a : α} :
    Runs (step f) s a s' ↔ f s = (a, s') := by
  simp only [Runs, step, modifyGet, MonadStateOf.modifyGet, EStateM.modifyGet]
  cases h : f s
  simp

@[simp] theorem runs_modify {f : State → State} {s s' : State} {u : PUnit} :
    Runs (modify f : Lower PUnit) s u s' ↔ s' = f s := by
  simp only [Runs, modify, modifyGet, MonadStateOf.modifyGet, EStateM.modifyGet,
    EStateM.Result.ok.injEq, true_and]
  exact eq_comm

@[simp] theorem runs_get {s a s' : State} :
    Runs (get : Lower State) s a s' ↔ a = s ∧ s' = s := by
  simp only [Runs, get, getThe, MonadStateOf.get, EStateM.get, EStateM.Result.ok.injEq]
  exact ⟨fun h => ⟨h.1.symm, h.2.symm⟩, fun h => ⟨h.1.symm, h.2.symm⟩⟩

@[simp] theorem not_runs_refuse {construct : Construct} {span : Option Span} {s s' : State} {a : α} :
    ¬ Runs (refuse construct span : Lower α) s a s' := by
  simp [Runs, refuse, throw, throwThe, MonadExceptOf.throw, EStateM.throw]

@[simp] theorem runs_emit {op : Staged} {s s' : State} {u : Unit} :
    Runs (emit op) s u s' ↔ s' = s.emit op := runs_modify

@[simp] theorem runs_enter {s s' : State} {block : Nat} :
    Runs enter s block s' ↔ block = s.blocks.length ∧ s' = s.enter := by
  simp only [enter, runs_step, Prod.mk.injEq]
  exact ⟨fun h => ⟨h.1.symm, h.2.symm⟩, fun h => ⟨h.1.symm, h.2.symm⟩⟩

@[simp] theorem runs_leave {s s' : State} {block : Nat} {u : Unit} :
    Runs (leave block) s u s' ↔ s.leave? block = some s' := by
  simp only [leave, runs_bind, runs_get]
  constructor
  · rintro ⟨_, _, ⟨rfl, rfl⟩, h⟩
    cases hl : State.leave? _ block with
    | none => simp [hl, Runs, throw, throwThe, MonadExceptOf.throw, EStateM.throw] at h
    | some t =>
      simp only [hl, Runs, set, MonadStateOf.set, EStateM.set, EStateM.Result.ok.injEq] at h
      rw [h.2]
  · intro h
    refine ⟨s, s, ⟨rfl, rfl⟩, ?_⟩
    simp [h, Runs, set, MonadStateOf.set, EStateM.set]

@[simp] theorem runs_inBlock {body : Nat → Lower α} {s s' : State} {r : Nat × α} :
    Runs (inBlock body) s r s' ↔ r.1 = s.blocks.length ∧ ∃ t,
      Runs (body s.blocks.length) s.enter r.2 t ∧ t.leave? s.blocks.length = some s' := by
  simp only [inBlock, runs_bind, runs_enter, runs_leave, runs_pure]
  constructor
  · rintro ⟨_, _, ⟨rfl, rfl⟩, a, t, ht, _, t', hl, rfl, rfl⟩
    exact ⟨rfl, t, ht, hl⟩
  · rintro ⟨hb, t, ht, hl⟩
    exact ⟨_, _, ⟨rfl, rfl⟩, r.2, t, ht, (), s', hl, by rw [← hb], rfl⟩

@[simp] theorem runs_read {name : String} {s s' : State} {x : Operand} :
    Runs (read name) s x s' ↔ s.read name = (x, s') := runs_step

@[simp] theorem runs_emitResult {h : Head} {ty : Ty} {s s' : State} {x : Operand} :
    Runs (emitResult h ty) s x s' ↔ s.emitResult h ty = (x, s') := runs_step

@[simp] theorem runs_ofExcept {r : Except Refusal α} {s s' : State} {a : α} :
    Runs (ofExcept r) s a s' ↔ r = .ok a ∧ s' = s := by
  cases r with
  | ok b =>
    simp only [ofExcept, runs_pure, Except.ok.injEq]
    exact ⟨fun h => ⟨h.1.symm, h.2⟩, fun h => ⟨h.1.symm, h.2⟩⟩
  | error r => simp [ofExcept, Runs, throw, throwThe, MonadExceptOf.throw, EStateM.throw]

theorem Runs.unique {x : Lower α} {s t u : State} {a b : α} (h : Runs x s a t)
    (h' : Runs x s b u) : a = b ∧ t = u := by
  rw [Runs] at h h'
  rw [h] at h'
  cases h'
  exact ⟨rfl, rfl⟩

/-- A view of the state after a step, computed, shows that the step succeeds. -/
theorem exists_runs_of_view {x : Lower α} {s : State} {b : β} (view : State → β)
    (h : (x >>= fun _ => return view (← get)).run' s = some b) : ∃ a t, Runs x s a t ∧ view t = b := by
  obtain ⟨t, run⟩ : ∃ t, Runs (x >>= fun _ => return view (← get)) s b t := by
    generalize (x >>= fun _ => return view (← get) : Lower β) = y at h
    cases hy : y s with
    | ok b' t =>
      simp only [EStateM.run', EStateM.run, hy, Option.some.injEq] at h
      exact ⟨t, by rw [Runs, hy, h]⟩
    | error e t => simp [EStateM.run', EStateM.run, hy] at h
  simp only [runs_bind, runs_get, runs_pure] at run
  obtain ⟨a, t, hx, _, _, ⟨rfl, rfl⟩, rfl, -⟩ := run
  exact ⟨a, _, hx, rfl⟩

end Lower

end RegionIR
