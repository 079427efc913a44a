import RegionIR.Proofs.Meaning
/-!
# Expressions compute their values

The straight line of an expression runs to a machine that holds the value of the expression, provided
the names that it reads have their values. It fails, or holds no value, where the expression has none.
-/
namespace RegionIR

open Lower (Runs)
open Operator

universe u

variable {D α β : Type u} {I : Interp D}

def ValueId.Below (hi : Nat) (v : ValueId) : Prop := ∀ n, v.counter? = some n → n < hi

theorem ValueId.Below.mono {lo hi : Nat} {v : ValueId} (h : v.Below lo) (hle : lo ≤ hi) :
    v.Below hi :=
  fun n hn => (h n hn).trans_le hle

def Machine.look (m : Machine D) (xs : List Operand) : Option (List D) := xs.mapM fun x => m.values x.1

@[simp] theorem Machine.look_nil (m : Machine D) : m.look [] = some [] := rfl

@[simp] theorem Machine.look_cons (m : Machine D) (x : Operand) (xs : List Operand) :
    m.look (x :: xs) = (m.values x.1).bind fun d => (m.look xs).map (d :: ·) := by
  simp only [look, List.mapM_cons]
  cases m.values x.1 <;> cases xs.mapM (fun x => m.values x.1) <;> rfl

/-- Between two machines only ids with numbers from `lo` to `hi` get values. -/
structure Later (lo hi : Nat) (m m' : Machine D) : Prop where
  memory : m'.memory = m.memory
  trace : m'.trace = m.trace
  values : ∀ v, (∀ n, v.counter? = some n → n < lo ∨ hi ≤ n) → m'.values v = m.values v

namespace Later

variable {lo mid hi : Nat} {m m' m'' : Machine D}

theorem refl (lo hi : Nat) (m : Machine D) : Later lo hi m m := ⟨rfl, rfl, fun _ _ => rfl⟩

theorem trans (h : Later lo mid m m') (h' : Later mid hi m' m'') (hle : lo ≤ mid) (hle' : mid ≤ hi) :
    Later lo hi m m'' where
  memory := h'.memory.trans h.memory
  trace := h'.trace.trans h.trace
  values v hv := by
    rw [h'.values v, h.values v]
    · intro n hn
      exact (hv n hn).imp id hle'.trans
    · intro n hn
      exact (hv n hn).imp (·.trans_le hle) id

theorem below (h : Later lo hi m m') {v : ValueId} (hv : v.Below lo) : m'.values v = m.values v :=
  h.values v fun n hn => .inl (hv n hn)

private theorem look (h : Later lo hi m m') {xs : List Operand} (hxs : ∀ x ∈ xs, x.1.Below lo) :
    m'.look xs = m.look xs := by
  induction xs with
  | nil => rfl
  | cons x xs ih =>
    rw [Machine.look_cons, Machine.look_cons, h.below (hxs x List.mem_cons_self),
      ih fun y hy => hxs y (List.mem_cons_of_mem _ hy)]

private theorem define (m : Machine D) (n : Nat) {v : ValueId} (hv : v.counter? = some n) (d : D) :
    Later n (n + 1) m (m.define v d) := by
  refine ⟨rfl, rfl, ?_⟩
  intro w hw
  refine Function.update_of_ne ?_ _ _
  rintro rfl
  have hn := hw n hv
  omega

end Later

/-- A straight line runs to a machine where `get` gives `r`; it may fail only if `r` is none. -/
def Yields (I : Interp D) (lo hi : Nat) (m : Machine D) (hs : List Head) (get : Machine D → Option α)
    (r : Option α) : Prop :=
  (∃ m', runAll I m (hs.map leaf) = some (m', .next) ∧ Later lo hi m m' ∧ get m' = r) ∨
    runAll I m (hs.map leaf) = none ∧ r = none

namespace Yields

variable {lo mid hi : Nat} {m : Machine D} {hs ks : List Head} {get : Machine D → Option α}
  {get' : Machine D → Option β} {r : Option α} {r' : Option β}

theorem nil (h : get m = r) : Yields I lo lo m [] get r :=
  .inl ⟨m, rfl, .refl _ _ m, h⟩

theorem bind (h : Yields I lo mid m hs get r) (hle : lo ≤ mid) (hle' : mid ≤ hi)
    (hnone : r = none → r' = none)
    (k : ∀ m', Later lo mid m m' → get m' = r → Yields I mid hi m' ks get' r') :
    Yields I lo hi m (hs ++ ks) get' r' := by
  rcases h with ⟨m', hrun, hlater, hget⟩ | ⟨hrun, hr⟩
  · rcases k m' hlater hget with ⟨m'', hrun', hlater', hget'⟩ | ⟨hrun', hr'⟩
    · refine .inl ⟨m'', ?_, hlater.trans hlater' hle hle', hget'⟩
      rw [List.map_append, runAll_append, hrun, proceed_next, hrun']
    · refine .inr ⟨?_, hr'⟩
      rw [List.map_append, runAll_append, hrun, proceed_next, hrun']
  · refine .inr ⟨?_, hnone hr⟩
    rw [List.map_append, runAll_append, hrun, proceed_none]

theorem map (h : Yields I lo hi m hs get r) (hnone : r = none → r' = none)
    (k : ∀ m', Later lo hi m m' → get m' = r → get' m' = r') : Yields I lo hi m hs get' r' := by
  rcases h with ⟨m', hrun, hlater, hget⟩ | ⟨hrun, hr⟩
  · exact .inl ⟨m', hrun, hlater, k m' hlater hget⟩
  · exact .inr ⟨hrun, hnone hr⟩

end Yields

theorem State.emitResult_appended {s t : State} {h : Head} {ty : Ty} {x : Operand}
    (run : s.emitResult h ty = (x, t)) :
    x.1 = .numbered s.counter ∧ Appended s [h.withResult x.1 ty] t := by
  have hx : x.1 = .numbered s.counter := by
    rw [State.emitResult] at run
    exact (congrArg (fun r => r.1.1) run).symm
  have ht : t = (s.emitResult h ty).2 := by rw [run]
  rw [hx, ht]
  exact ⟨rfl, ⟨rfl, rfl, rfl, rfl, rfl, rfl, rfl⟩⟩

theorem Appended.counter_le {s t : State} {hs : List Head} (h : Appended s hs t) :
    s.counter ≤ t.counter := by
  rw [h.counter]
  omega

theorem Appended.refl (s : State) : Appended s [] s := ⟨rfl, rfl, rfl, rfl, rfl, rfl, rfl⟩

private theorem Compares.appended {ops : List CmpOperator} {xs results : List Operand} {s t : State}
    {hs : List Head} (pairs : Compares ops xs s hs results t) : Appended s hs t := by
  induction pairs with
  | last emit => exact (State.emitResult_appended emit).2
  | cons emit _ ih => exact (State.emitResult_appended emit).2.trans ih

private theorem Conjoins.appended {first x : Operand} {rest : List Operand} {s t : State}
    {hs : List Head} (joined : Conjoins first rest s hs x t) : Appended s hs t := by
  induction joined with
  | nil => exact .refl _
  | cons emit _ ih => exact (State.emitResult_appended emit).2.trans ih

theorem Flattens.appended {e : Expr} {s t : State} {hs : List Head} {x : Operand}
    (flattens : Flattens e s hs x t) : Appended s hs t :=
  (flattens.straight .start).flat.appended

theorem FlattensAll.appended {es : List Expr} {s t : State} {hs : List Head} {xs : List Operand}
    (flattens : FlattensAll es s hs xs t) : Appended s hs t :=
  (flattens.straight .start).flat.appended

private theorem FlattensJoined.appended {op : BoolOperator} {j x : Operand} {es : List Expr}
    {s t : State}
    {hs : List Head} (joined : FlattensJoined op j es s hs x t) : Appended s hs t := by
  induction es generalizing j s hs with
  | nil =>
    cases joined
    exact .refl _
  | cons e rest ih =>
    cases joined with
    | cons operand emit more =>
      exact operand.appended.trans ((State.emitResult_appended emit).2.trans (ih more))

private theorem Yields.single {n : Nat} {h : Head} {v : ValueId} {m : Machine D} {r : Option D}
    (hname : h.name ≠ "if") (hv : v.counter? = some n)
    (heffect : h.effect I m = r.map fun d => (m.define v d, .next)) :
    Yields I n (n + 1) m [h] (·.values v) r := by
  have hrun : runAll I m ([h].map leaf) = r.map fun d => (m.define v d, .next) := by
    rw [List.map_singleton, runAll_singleton, run_leaf I m hname, heffect]
  cases r with
  | none => exact .inr ⟨hrun, rfl⟩
  | some d => exact .inl ⟨m.define v d, hrun, .define m n hv d, by simp [Machine.define]⟩

private theorem Yields.op {s t : State} {h : Head} {ty : Ty} {x : Operand} {m : Machine D} {r : Option D}
    (run : s.emitResult h ty = (x, t)) (hname : h.name ≠ "if")
    (heffect : (h.withResult x.1 ty).effect I m = r.map fun d => (m.define x.1 d, .next)) :
    Yields I s.counter t.counter m [h.withResult x.1 ty] (·.values x.1) r := by
  obtain ⟨hx, happ⟩ := State.emitResult_appended run
  rw [happ.counter]
  exact .single hname (by rw [hx, ValueId.counter?_numbered]) heffect

/-- The names have their values: in memory, or under the id that a read gives. -/
structure Ready (s : State) (env : String → Option D) (m : Machine D) (names : List String) : Prop where
  loaded : ∀ x ∈ names, s.home x = .memory → m.memory x = env x
  held : ∀ x ∈ names, s.home x ≠ .memory →
    m.values ((s.home x).valueOf x) = env x ∧ ((s.home x).valueOf x).Below s.counter

namespace Ready

variable {s t : State} {env : String → Option D} {m m' : Machine D} {names others : List String}
  {hs : List Head}

private theorem left (h : Ready s env m (names ++ others)) : Ready s env m names :=
  ⟨fun x hx => h.loaded x (List.mem_append_left _ hx), fun x hx => h.held x (List.mem_append_left _ hx)⟩

private theorem right (h : Ready s env m (names ++ others)) : Ready s env m others :=
  ⟨fun x hx => h.loaded x (List.mem_append_right _ hx),
    fun x hx => h.held x (List.mem_append_right _ hx)⟩

private theorem later (h : Ready s env m names) (happ : Appended s hs t)
    (hlater : Later s.counter t.counter m m') : Ready t env m' names where
  loaded x hx hmem := by
    rw [happ.home] at hmem
    rw [hlater.memory]
    exact h.loaded x hx hmem
  held x hx hne := by
    rw [happ.home] at hne ⊢
    obtain ⟨hv, hbelow⟩ := h.held x hx hne
    exact ⟨by rw [hlater.below hbelow, hv], hbelow.mono happ.counter_le⟩

end Ready

private theorem State.emitResult_below {s t : State} {h : Head} {ty : Ty} {x : Operand}
    (run : s.emitResult h ty = (x, t)) : x.1.Below t.counter := by
  obtain ⟨hx, happ⟩ := State.emitResult_appended run
  intro n hn
  rw [hx, ValueId.counter?_numbered] at hn
  cases hn
  rw [happ.counter]
  exact Nat.lt_succ_self _

private theorem look_neighbours (m : Machine D) (op : CmpOperator) (ops : List CmpOperator)
    (left right : Operand)
    (more : List Operand) : (m.look (left :: right :: more)).map (I.neighbours (op :: ops)) =
      ((m.values left.1).bind fun a => (m.values right.1).map (I.comparison op a)).bind fun d =>
        ((m.look (right :: more)).map (I.neighbours ops)).map (d :: ·) := by
  rw [Machine.look_cons, Machine.look_cons]
  cases m.values left.1 <;> cases m.values right.1 <;> cases m.look more <;> rfl

private theorem look_neighbours_pair (m : Machine D) (op : CmpOperator) (left right : Operand) :
    (m.look [left, right]).map (I.neighbours [op]) =
      ((m.values left.1).bind fun a => (m.values right.1).map (I.comparison op a)).bind fun d =>
        (some []).map (d :: ·) := by
  rw [Machine.look_cons, Machine.look_cons, Machine.look_nil]
  cases m.values left.1 <;> cases m.values right.1 <;> rfl

private theorem look_joined (m : Machine D) (op : BoolOperator) (first next : Operand)
    (rest : List Operand) :
    (m.look (first :: next :: rest)).bind (I.joined op) =
      (((m.values first.1).bind fun d => (m.values next.1).map (I.connective op d)).bind fun d =>
        (m.look rest).map (d :: ·)).bind (I.joined op) := by
  rw [Machine.look_cons, Machine.look_cons]
  cases m.values first.1 <;> cases m.values next.1 <;> cases m.look rest <;> rfl

/-- Comparing neighbours fails if one of the operands has no value, since each of them is taken. -/
theorem Compares.yields {ops : List CmpOperator} {xs results : List Operand} {s t : State} {hs : List Head}
    (pairs : Compares ops xs s hs results t) {m : Machine D} (below : ∀ x ∈ xs, x.1.Below s.counter) :
    (∀ x ∈ results, x.1.Below t.counter) ∧
      Yields I s.counter t.counter m hs (·.look results) ((m.look xs).map (I.neighbours ops)) := by
  induction pairs generalizing m with
  | @last op left right x s t emit =>
    have hop : Yields I s.counter t.counter m _ (·.values x.1)
        ((m.values left.1).bind fun a => (m.values right.1).map (I.comparison op a)) :=
      .op emit (by simp [compareHead]) (Head.effect_compareHead I m ..)
    refine ⟨by simpa using State.emitResult_below emit, ?_⟩
    rw [look_neighbours_pair]
    refine hop.map (fun hr => by rw [hr, Option.bind_none]) fun m' _ hv => ?_
    rw [Machine.look_cons, Machine.look_nil, hv]
  | @cons op ops left right x more results hs s s₁ t emit rest ih =>
    have hop : Yields I s.counter s₁.counter m _ (·.values x.1)
        ((m.values left.1).bind fun a => (m.values right.1).map (I.comparison op a)) :=
      .op emit (by simp [compareHead]) (Head.effect_compareHead I m ..)
    have hcounter := (State.emitResult_appended emit).2.counter_le
    have hcounter' := rest.appended.counter_le
    have hbelow := State.emitResult_below emit
    have hright : ∀ y ∈ right :: more, y.1.Below s.counter := fun y hy =>
      below y (List.mem_cons_of_mem _ hy)
    have hright' : ∀ y ∈ right :: more, y.1.Below s₁.counter := fun y hy => (hright y hy).mono hcounter
    refine ⟨?_, ?_⟩
    · intro y hy
      rcases List.mem_cons.mp hy with rfl | hy
      · exact hbelow.mono hcounter'
      · exact (ih (m := m) hright').1 y hy
    · rw [look_neighbours]
      refine hop.bind hcounter hcounter' (fun hr => by rw [hr, Option.bind_none]) fun m' hlater hv => ?_
      have hlast := (ih (m := m') hright').2
      rw [hlater.look hright] at hlast
      refine hlast.map (fun hr => ?_) fun m'' hlater' hlook => ?_
      · rw [hr]
        exact Option.bind_fun_none _
      · rw [Machine.look_cons, hlook, hlater'.below hbelow, hv]

private theorem connect_yields {op : BoolOperator} {a b x : Operand} {s t : State}
    (emit : s.emitResult (boolHead op a b) .unknown = (x, t)) (m : Machine D) :
    Yields I s.counter t.counter m [(boolHead op a b).withResult x.1 .unknown] (·.values x.1)
      ((m.values a.1).bind fun d => (m.values b.1).map (I.connective op d)) :=
  .op emit (by simp [boolHead]) (Head.effect_boolHead I m ..)

private theorem Conjoins.yields {first x : Operand} {rest : List Operand} {s t : State} {hs : List Head}
    (joined : Conjoins first rest s hs x t) {m : Machine D}
    (below : ∀ y ∈ first :: rest, y.1.Below s.counter) : x.1.Below t.counter ∧
      Yields I s.counter t.counter m hs (·.values x.1)
        ((m.look (first :: rest)).bind (I.joined .and)) := by
  induction joined generalizing m with
  | @nil x s =>
    refine ⟨below _ (by simp), .nil ?_⟩
    cases hx : m.values x.1 <;> simp [hx, Interp.joined]
  | @cons first next joined x more hs s s₁ t emit rest ih =>
    have hcounter := (State.emitResult_appended emit).2.counter_le
    have hmore : ∀ y ∈ more, y.1.Below s.counter := fun y hy => below y (by simp [hy])
    have hall : ∀ y ∈ joined :: more, y.1.Below s₁.counter := by
      intro y hy
      rcases List.mem_cons.mp hy with rfl | hy
      · exact State.emitResult_below emit
      · exact (hmore y hy).mono hcounter
    refine ⟨(ih (m := m) hall).1, ?_⟩
    rw [look_joined]
    refine (connect_yields emit m).bind hcounter rest.appended.counter_le
      (fun hr => by rw [hr, Option.bind_none, Option.bind_none]) fun m' hlater hv => ?_
    have hlast := (ih (m := m') hall).2
    rw [Machine.look_cons, hv, hlater.look hmore] at hlast
    exact hlast

private theorem Lower.namedArguments_eq {ks : List Keyword} {attrs : List Attr}
    (h : namedArguments ks = .ok attrs) :
    attrs.mapM Attr.text? = some (ks.map Keyword.written) := by
  induction ks generalizing attrs with
  | nil =>
    cases h
    rfl
  | cons k ks ih =>
    rw [namedArguments] at h
    split at h
    · simp at h
    · cases hrest : namedArguments ks with
      | error r => simp [hrest, bind, Except.bind] at h
      | ok rest =>
        simp only [hrest, bind, Except.bind, pure, Except.pure, Except.ok.injEq] at h
        subst h
        simp [Attr.text?, ih hrest]

namespace Head.Calls

variable {func : Expr} {values : List Operand} {ks : List Keyword} {h : Head}

private theorem name (calls : Calls func values ks h) : h.name = "call" := by
  cases calls <;> rfl

private theorem callee (calls : Calls func values ks h) : h.text? "callee" = some func.written := by
  cases calls <;> simp [Head.text?, Attr.text?, Attrs.get?_set_of_ne]

private theorem keywords (calls : Calls func values ks h) :
    h.keywords? = some (ks.map Keyword.written) := by
  cases calls with
  | plain => simp [Head.keywords?, Attrs.get?_set_of_ne]
  | named written => simp [Head.keywords?, Lower.namedArguments_eq written]

end Head.Calls

mutual

/-- An expression runs to its value. -/
theorem Flattens.yields {env : String → Option D} : {e : Expr} → {s t : State} → {hs : List Head} →
    {x : Operand} → Flattens e s hs x t → ∀ {m : Machine D}, Ready s env m e.reads →
    x.1.Below t.counter ∧ Yields I s.counter t.counter m hs (·.values x.1) (e.eval I env)
  | _, s, _, _, _, .load home, m, ready => by
    rw [State.read_memory home]
    refine ⟨?_, .single (by simp [loadHead]) (ValueId.counter?_versioned _ _) ?_⟩
    · intro n hn
      rw [ValueId.counter?_versioned] at hn
      cases hn
      exact Nat.lt_succ_self _
    · rw [Head.effect_loadHead, ready.loaded _ (by simp [Expr.reads]) home]
      rfl
  | _, _, _, _, _, .value home, m, ready => by
    obtain ⟨hv, hbelow⟩ := ready.held _ (by simp [Expr.reads]) home
    exact ⟨hbelow, .nil hv⟩
  | _, _, _, _, _, @Flattens.constant lit kind _ _ _ _ emit, m, _ => by
    refine ⟨State.emitResult_below emit, .op emit ?_ ?_⟩
    · cases kind <;> simp [constantHead]
    · rw [Expr.eval]
      exact Head.effect_constant I m ..
  | _, _, _, _, _, @Flattens.binOp left right op _ _ _ _ _ _ _ _ _ _ first second emit, m, ready => by
    have happ := (State.emitResult_appended emit).2
    rw [Expr.reads] at ready
    obtain ⟨hbelow, hyields⟩ := first.yields ready.left
    refine ⟨State.emitResult_below emit, ?_⟩
    rw [Expr.eval_binOp, List.append_assoc]
    refine hyields.bind first.appended.counter_le (second.appended.trans happ).counter_le
      (by simp +contextual) fun m₁ hlater₁ hv₁ => ?_
    refine (second.yields (ready.right.later first.appended hlater₁)).2.bind second.appended.counter_le
      happ.counter_le (fun hr => by cases left.eval I env <;> simp [hr])
      fun m₂ hlater₂ hv₂ => .op emit (by simp [binaryHead]) ?_
    rw [binaryHead, Head.effect_binary, hlater₂.below hbelow, hv₁, hv₂]
  | _, _, _, _, _, .unaryOp operand emit, m, ready => by
    refine ⟨State.emitResult_below emit, ?_⟩
    rw [Expr.reads] at ready
    rw [Expr.eval_unaryOp]
    refine (operand.yields ready).2.bind operand.appended.counter_le
      (State.emitResult_appended emit).2.counter_le (by simp +contextual)
      fun m₁ _ hv => .op emit (by simp [unaryHead]) ?_
    rw [unaryHead, Head.effect_unary, hv, Option.map_map]
    rfl
  | _, _, _, _, _, @Flattens.boolOp first second rest op _ _ _ _ _ _ _ _ operand joined, m, ready => by
    rw [Expr.reads, Expr.readsAll] at ready
    obtain ⟨hbelow, hyields⟩ := operand.yields ready.left
    refine ⟨(joined.yields (ready.right.later operand.appended (.refl _ _ m)) hbelow).1, ?_⟩
    rw [Expr.eval_boolOp, Expr.evalAll_cons]
    refine hyields.bind operand.appended.counter_le joined.appended.counter_le (by simp +contextual)
      fun m₁ hlater₁ hv₁ => ?_
    have hlast := (joined.yields (ready.right.later operand.appended hlater₁) hbelow).2
    rw [hv₁] at hlast
    cases hf : first.eval I env <;> cases hr : Expr.evalAll I env (second :: rest) <;>
      simpa [hf, hr, Interp.joined] using hlast
  | _, _, _, _, _, @Flattens.compare left ops comparators _ _ s₁ s₂ _ _ _ _ _ _ a _ _ rest _ _ operand
      others pairs joined, m, ready => by
    rw [Expr.reads] at ready
    obtain ⟨hbelow, hyields⟩ := operand.yields ready.left
    have hall : ∀ y ∈ a :: rest, y.1.Below s₂.counter := by
      intro y hy
      rcases List.mem_cons.mp hy with rfl | hy
      · exact hbelow.mono others.appended.counter_le
      · exact (others.yields (ready.right.later operand.appended (.refl _ _ m))).1 y hy
    have hresults := (pairs.yields (I := I) (m := m) hall).1
    refine ⟨(joined.yields (I := I) (m := m) hresults).1, ?_⟩
    have hlinks := pairs.appended.trans joined.appended
    rw [Expr.eval_compare, Expr.evalAll_cons, List.append_assoc, List.append_assoc]
    refine hyields.bind operand.appended.counter_le (others.appended.trans hlinks).counter_le
      (by simp +contextual) fun m₁ hlater₁ hv₁ => ?_
    refine (others.yields (ready.right.later operand.appended hlater₁)).2.bind others.appended.counter_le
      hlinks.counter_le (fun hr => by cases left.eval I env <;> simp [hr]) fun m₂ hlater₂ hlook₂ => ?_
    have hlook : m₂.look (a :: rest) = (left.eval I env).bind fun d =>
        (Expr.evalAll I env comparators).map (d :: ·) := by
      rw [Machine.look_cons, hlater₂.below hbelow, hv₁, hlook₂]
    have hpairs := (pairs.yields (I := I) (m := m₂) hall).2
    rw [hlook] at hpairs
    refine hpairs.bind pairs.appended.counter_le joined.appended.counter_le ?_ fun m₃ _ hlook₃ => ?_
    · cases left.eval I env <;> cases Expr.evalAll I env comparators <;> simp
    · have hlast := (joined.yields (I := I) (m := m₃) hresults).2
      rw [hlook₃, Option.bind_map] at hlast
      exact hlast
  | _, _, _, _, _, .call operands calls emit, m, ready => by
    refine ⟨State.emitResult_below emit, ?_⟩
    rw [Expr.reads] at ready
    rw [Expr.eval_call]
    refine (operands.yields ready).2.bind operands.appended.counter_le
      (State.emitResult_appended emit).2.counter_le (by simp +contextual)
      fun m₁ _ hlook => .op emit (by simp [calls.name]) ?_
    rw [Head.effect_call I m₁ _ _ _ calls.name calls.takes.args calls.callee calls.keywords,
      ← Machine.look, hlook, Option.map_map]
    rfl

theorem FlattensJoined.yields {env : String → Option D} : {op : BoolOperator} → {j : Operand} →
    {es : List Expr} → {s t : State} → {hs : List Head} → {x : Operand} →
    FlattensJoined op j es s hs x t → ∀ {m : Machine D}, Ready s env m (Expr.readsAll es) →
    j.1.Below s.counter → x.1.Below t.counter ∧
      Yields I s.counter t.counter m hs (·.values x.1) ((m.values j.1).bind fun d =>
        (Expr.evalAll I env es).map fun ds => ds.foldl (I.connective op) d)
  | _, j, _, _, _, _, _, .nil, m, _, hj => by
    refine ⟨hj, .nil ?_⟩
    cases hx : m.values j.1 <;> simp [Expr.evalAll]
  | _, j, _, _, _, _, _, @FlattensJoined.cons _ _ _ _ _ e rest _ _ _ _ _ _ operand emit joined, m, ready,
    hj => by
    have happ := (State.emitResult_appended emit).2
    have hnext := State.emitResult_below emit
    rw [Expr.readsAll] at ready
    refine ⟨(joined.yields (ready.right.later (operand.appended.trans happ) (.refl _ _ m)) hnext).1, ?_⟩
    rw [Expr.evalAll_cons]
    refine (operand.yields ready.left).2.bind operand.appended.counter_le
      (happ.trans joined.appended).counter_le (fun hr => by cases m.values j.1 <;> simp [hr])
      fun m₁ hlater₁ hv₁ => ?_
    have ready₁ := ready.right.later operand.appended hlater₁
    have hop := connect_yields (I := I) emit m₁
    rw [hlater₁.below hj, hv₁] at hop
    refine hop.bind happ.counter_le joined.appended.counter_le ?_ fun m₂ hlater₂ hv₂ => ?_
    · cases m.values j.1 <;> cases e.eval I env <;> simp
    · have hlast := (joined.yields (ready₁.later happ hlater₂) hnext).2
      rw [hv₂] at hlast
      cases hm : m.values j.1 <;> cases he : e.eval I env <;>
        cases hr : Expr.evalAll I env rest <;> simpa [hm, he, hr] using hlast

theorem FlattensAll.yields {env : String → Option D} : {es : List Expr} → {s t : State} →
    {hs : List Head} → {xs : List Operand} → FlattensAll es s hs xs t → ∀ {m : Machine D},
    Ready s env m (Expr.readsAll es) → (∀ x ∈ xs, x.1.Below t.counter) ∧
      Yields I s.counter t.counter m hs (·.look xs) (Expr.evalAll I env es)
  | _, _, _, _, _, .nil, m, _ => ⟨by simp, .nil rfl⟩
  | _, _, _, _, _, @FlattensAll.cons e rest _ _ _ _ _ _ _ operand others, m, ready => by
    rw [Expr.readsAll] at ready
    obtain ⟨hbelow, hyields⟩ := operand.yields ready.left
    refine ⟨?_, ?_⟩
    · intro y hy
      rcases List.mem_cons.mp hy with rfl | hy
      · exact hbelow.mono others.appended.counter_le
      · exact (others.yields (ready.right.later operand.appended (.refl _ _ m))).1 y hy
    · rw [Expr.evalAll_cons]
      refine hyields.bind operand.appended.counter_le others.appended.counter_le (by simp +contextual)
        fun m₁ hlater₁ hv₁ => ?_
      refine (others.yields (ready.right.later operand.appended hlater₁)).2.map
        (fun hr => by cases e.eval I env <;> simp [hr]) fun m₂ hlater₂ hlook => ?_
      rw [Machine.look_cons, hlater₂.below hbelow, hv₁, hlook]

end

end RegionIR
