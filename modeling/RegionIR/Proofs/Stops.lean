import RegionIR.Proofs.Discipline
import RegionIR.Proofs.Reach
/-!
# Between two statements

`Stmt.trace` lists the points at which lowering a module is between two statements, in the order of
time: before the first statement of each body and after each statement, once its operator is appended.
A tree that is refused has the points up to the refusal. From one point to the next there are six kinds
of steps, and what holds at every point is shown step by step.
-/
namespace RegionIR

open Lower (Runs)

/-- A function whose body is being lowered: its entry block and the values of its parameters. -/
structure OpenFunction where
  block : Nat
  params : List (String × ValueId)

/-- A point between two statements: the state, and the functions it is inside of, the innermost first. -/
structure Stop where
  state : State
  functions : List OpenFunction

namespace Lower

variable {α β : Type}

/-- What follows a step, and nothing if the step fails. -/
def after (x : Lower α) (s : State) (k : α → State → List β) : List β :=
  match x s with
  | .ok a t => k a t
  | .error _ _ => []

private theorem after_of_runs {x : Lower α} {s t : State} {a : α} (run : Runs x s a t)
    (k : α → State → List β) : x.after s k = k a t := by
  rw [Runs] at run
  rw [after, run]

private theorem after_cases (x : Lower α) (s : State) (k : α → State → List β) :
    (∃ a t, Runs x s a t ∧ x.after s k = k a t) ∨ (∀ a t, ¬ Runs x s a t) ∧ x.after s k = [] := by
  cases hx : x s with
  | ok a t => exact .inl ⟨a, t, hx, after_of_runs hx k⟩
  | error e t => exact .inr ⟨by simp [Runs, hx], by rw [after, hx]⟩

end Lower

namespace Stmt

mutual

/-- The points inside the bodies of a statement. -/
def stops (fs : List OpenFunction) (s : State) : Stmt → List Stop
  | mk form _ =>
    match form with
    | .functionDef name params body _ returns =>
      if params.refused?.isSome then []
      else
        (Lower.bindParams s.blocks.length params.plain).after
          (s.declare name (annotatedTy? returns)).pushFunction.enter fun formals t =>
            stopsAll (⟨s.blocks.length, params.names.zip (formals.map Prod.fst)⟩ :: fs) t body
    | .classDef _ _ _ body _ => stopsAll fs s.pushClass.enter body
    | .forIn target iter body orelse =>
      match target.name?, orelse with
      | some name, [] =>
        (Lower.exprRegion iter).after s fun _ t => stopsAll fs (t.writeThrough name).enter body
      | _, _ => []
    | .whileDo test body orelse =>
      match orelse with
      | [] => (Lower.exprRegion test).after s fun _ t => stopsAll fs t.enter body
      | _ => []
    | .ifElse test yes no =>
      (Lower.operand test).after s fun _ t =>
        stopsAll fs t.enter yes ++
          (Lower.region (Lower.body yes)).after t fun _ u =>
            if no.isEmpty then [] else stopsAll fs u.enter no
    | _ => []
termination_by structural s => s

/-- The points before, between and after statements. -/
def stopsAll (fs : List OpenFunction) (s : State) : List Stmt → List Stop
  | [] => [⟨s, fs⟩]
  | st :: rest =>
    ⟨s, fs⟩ :: (st.stops fs s ++
      (Lower.statement st).after s fun op t => stopsAll fs (t.emit op) rest)
termination_by structural ss => ss

end

def trace (stmts : List Stmt) : List Stop := stopsAll [] State.initial stmts

end Stmt

/-- What can happen from one point to the next. The names that a statement or a parameter list uses are
among `N`. -/
inductive Stop.Next (N : String → Prop) : Stop → Stop → Prop
  | simple {s t : State} {fs : List OpenFunction} {st : Stmt} {own : Head} (one : Simple s st own t)
      (names : ∀ x ∈ Act.namesAll (st.acts s.inFunction), N x) :
      Next N ⟨s, fs⟩ ⟨t.emit (.ofHead own), fs⟩
  /-- The first body of a compound statement begins. -/
  | enter {s t : State} {fs : List OpenFunction} {st : Stmt} {own : Head} {slots : List Slot}
      {bodies : List (List Stmt)} {close : State → State}
      (opens : Opens s st own slots bodies t close) : Next N ⟨s, fs⟩ ⟨t.enter, fs⟩
  /-- One branch ends and the other one begins. -/
  | branch {s t : State} {fs : List OpenFunction} {block : Nat} (left : s.leave? block = some t) :
      Next N ⟨s, fs⟩ ⟨t.enter, fs⟩
  /-- The last body ends, and the operator of its statement is appended. -/
  | leave {s t u : State} {fs : List OpenFunction} {block : Nat} {op : Staged}
      (left : s.leave? block = some t) (inside : t.nesting ≠ []) (closed : u = t ∨ u = t.popClass) :
      Next N ⟨s, fs⟩ ⟨u.emit op, fs⟩
  | call {s t : State} {fs : List OpenFunction} {name : String} {ty : Ty} {params : Params}
      {formals : List (ValueId × Ty)}
      (bind : Runs (Lower.bindParams s.blocks.length params.plain)
        (s.declare name ty).pushFunction.enter formals t)
      (names : ∀ x ∈ params.names, N x) :
      Next N ⟨s, fs⟩ ⟨t, ⟨s.blocks.length, params.names.zip (formals.map Prod.fst)⟩ :: fs⟩
  | ret {s t : State} {f : OpenFunction} {fs : List OpenFunction} {block : Nat} {op : Staged}
      (left : s.leave? block = some t) (inside : t.nesting ≠ []) :
      Next N ⟨s, f :: fs⟩ ⟨t.popFunction.emit op, fs⟩

/-- From the point before a statement one comes to its points, and from the last of them to the point
behind it. -/
structure Stmt.Leads (N : String → Prop) (fs : List OpenFunction) (s : State) (st : Stmt) : Prop where
  chain : (⟨s, fs⟩ :: st.stops fs s).IsChain (Stop.Next N)
  last : ∀ op t, Runs (Lower.statement st) s op t →
    ∀ p ∈ (⟨s, fs⟩ :: st.stops fs s).getLast?, Stop.Next N p ⟨t.emit op, fs⟩

structure Stmt.LeadsAll (N : String → Prop) (fs : List OpenFunction) (s : State) (stmts : List Stmt) :
    Prop where
  chain : (Stmt.stopsAll fs s stmts).IsChain (Stop.Next N)
  head : (Stmt.stopsAll fs s stmts).head? = some ⟨s, fs⟩
  last : ∀ u t, Runs (Lower.body stmts) s u t → (Stmt.stopsAll fs s stmts).getLast? = some ⟨t, fs⟩

private theorem Lowers.simple_of_single {s s' : State} {st : Stmt} (lowers : Lowers s [st] s')
    (hopens : ∀ own slots bodies u close, ¬ Opens s st own slots bodies u close)
    (hfunction : ∀ name params body decorators returns span,
      st ≠ .mk (.functionDef name params body decorators returns) span) :
    ∃ own u, Simple s st own u ∧ s' = u.emit (.ofHead own) := by
  cases lowers with
  | simple one rest =>
    cases rest
    exact ⟨_, _, one, rfl⟩
  | compound opens => exact absurd opens (hopens _ _ _ _ _)
  | function => exact absurd rfl (hfunction _ _ _ _ _ _)

namespace Stmt

variable {N : String → Prop} {fs gs : List OpenFunction} {s m : State} {st : Stmt} {stmts : List Stmt}

private theorem Leads.of_no_stops (hstops : st.stops fs s = [])
    (finish : ∀ op t, Runs (Lower.statement st) s op t → Stop.Next N ⟨s, fs⟩ ⟨t.emit op, fs⟩) :
    Leads N fs s st := by
  constructor
  · rw [hstops]
    exact .singleton _
  · intro op t run p hp
    rw [hstops, List.getLast?_singleton] at hp
    cases hp
    exact finish op t run

private theorem Leads.of_simple (names : ∀ x ∈ Act.namesAll (st.acts s.inFunction), N x)
    (hstops : st.stops fs s = [])
    (hopens : ∀ own slots bodies u close, ¬ Opens s st own slots bodies u close)
    (hfunction : ∀ name params body decorators returns span,
      st ≠ .mk (.functionDef name params body decorators returns) span) : Leads N fs s st := by
  refine .of_no_stops hstops fun op t run => ?_
  have lowers : Lowers s [st] (t.emit op) := Lower.statement_lowers st run .nil
  obtain ⟨own, u, one, heq⟩ := lowers.simple_of_single hopens hfunction
  rw [heq]
  exact .simple one names

private theorem Leads.of_not_runs (hstops : st.stops fs s = [])
    (hnot : ∀ op t, ¬ Runs (Lower.statement st) s op t) : Leads N fs s st :=
  .of_no_stops hstops fun op t run => absurd run (hnot op t)

private theorem Leads.of_body (body : LeadsAll N gs m stmts)
    (hstops : st.stops fs s = stopsAll gs m stmts) (enter : Stop.Next N ⟨s, fs⟩ ⟨m, gs⟩)
    (finish : ∀ op t, Runs (Lower.statement st) s op t →
      ∃ u, Runs (Lower.body stmts) m () u ∧ Stop.Next N ⟨u, gs⟩ ⟨t.emit op, fs⟩) :
    Leads N fs s st := by
  constructor
  · rw [hstops]
    refine body.chain.cons ?_
    rw [body.head]
    rintro _ ⟨⟩
    exact enter
  · intro op t run p hp
    obtain ⟨u, hbody, next⟩ := finish op t run
    rw [hstops, List.getLast?_cons, body.last () u hbody] at hp
    cases hp
    exact next

private theorem Leads.of_branches {n v : State} {others : List Stmt} (one : LeadsAll N fs m stmts)
    (two : LeadsAll N fs n others)
    (hstops : st.stops fs s = stopsAll fs m stmts ++ stopsAll fs n others)
    (enter : Stop.Next N ⟨s, fs⟩ ⟨m, fs⟩) (ended : Runs (Lower.body stmts) m () v)
    (between : Stop.Next N ⟨v, fs⟩ ⟨n, fs⟩)
    (finish : ∀ op t, Runs (Lower.statement st) s op t →
      ∃ u, Runs (Lower.body others) n () u ∧ Stop.Next N ⟨u, fs⟩ ⟨t.emit op, fs⟩) :
    Leads N fs s st := by
  constructor
  · rw [hstops]
    refine (one.chain.append two.chain ?_).cons ?_
    · rw [one.last () v ended, two.head]
      rintro _ ⟨⟩ _ ⟨⟩
      exact between
    · rw [List.head?_append, one.head, Option.some_or]
      rintro _ ⟨⟩
      exact enter
  · intro op t run p hp
    obtain ⟨u, hbody, next⟩ := finish op t run
    rw [hstops, List.getLast?_cons, List.getLast?_append, two.last () u hbody] at hp
    cases hp
    exact next

private theorem names_of_body {t : State} {own : Head} {slots : List Slot} {bodies : List (List Stmt)}
    {close : State → State} (opens : Opens s st own slots bodies t close)
    (names : ∀ x ∈ Act.namesAll (st.acts s.inFunction), N x) (hmem : stmts ∈ bodies) :
    ∀ x ∈ Act.namesAll (actsAll t.enter.inFunction stmts), N x := by
  obtain ⟨pre, hs, regions, m, opened⟩ := opens.opened
  intro x hx
  change x ∈ Act.namesAll (actsAll t.inFunction stmts) at hx
  apply names
  rw [opened.acts opened.opening.extension.sites, Act.namesAll_append, List.mem_append]
  right
  clear opens opened
  induction bodies with
  | nil => simp at hmem
  | cons body bodies ih =>
    rw [List.map_cons, Act.namesAll, Act.names, List.mem_append]
    rcases List.mem_cons.mp hmem with rfl | hmem
    · exact .inl hx
    · exact .inr (ih hmem)

private theorem nesting_ne_nil {op : Staged} {t : State} (run : Runs (Lower.statement st) s op t)
    (inside : s.nesting ≠ []) : t.nesting ≠ [] := by
  have ext := (Lower.statement_lowers st run .nil).extension
  exact fun hnil => inside (ext.nesting.symm.trans hnil)

def BodyLeads (N : String → Prop) (stmts : List Stmt) : Prop :=
  ∀ {fs : List OpenFunction} {s : State}, (∀ x ∈ Act.namesAll (actsAll s.inFunction stmts), N x) →
    s.nesting ≠ [] → LeadsAll N fs s stmts

private theorem Leads.of_function {name : String} {params : Params} {decorators : List Expr}
    {returns : Option Expr} {span : Option Span} (body : BodyLeads N stmts)
    (names : ∀ x ∈ Act.namesAll
      (acts s.inFunction (.mk (.functionDef name params stmts decorators returns) span)), N x)
    (inside : s.nesting ≠ []) :
    Leads N fs s (.mk (.functionDef name params stmts decorators returns) span) := by
  cases hrefused : params.refused? with
  | some construct =>
    exact .of_not_runs (by simp [stops, hrefused]) (by simp [Lower.statement, Lower.function, hrefused])
  | none =>
    have hstops : stops fs s (.mk (.functionDef name params stmts decorators returns) span) = _ :=
      if_neg (by simp [hrefused])
    rcases Lower.after_cases (Lower.bindParams s.blocks.length params.plain)
      (s.declare name (annotatedTy? returns)).pushFunction.enter _ with
      ⟨formals, t, bind, heq⟩ | ⟨hnot, heq⟩
    · rw [heq] at hstops
      have hsites : t.sites = .function :: s.sites := (Lower.binds_of_bindParams bind).entry.2.2.2.1
      have hnames : (∀ x ∈ params.names, N x) ∧ ∀ x ∈ Act.namesAll (actsAll true stmts), N x := by
        simpa [acts, Act.namesAll, Act.names, or_imp, forall_and] using names
      refine .of_body (body ?_ ?_) hstops (.call bind hnames.1) ?_
      · rw [State.inFunction, State.site, hsites]
        exact hnames.2
      · rw [(Lower.binds_of_bindParams bind).entry.2.2.2.2]
        exact List.cons_ne_nil _ _
      · intro op t' run
        have inside' := nesting_ne_nil run inside
        simp only [Lower.statement, Lower.function, hrefused, Lower.runs_bind, Lower.runs_modify,
          Lower.runs_inBlock, Lower.runs_pure] at run
        obtain ⟨_, s₁, rfl, _, s₂, rfl, ⟨entry, formals'⟩, s₃, ⟨hentry, s₄, ⟨_, s₅, hbind, _, s₆, hbody,
          -, rfl⟩, hleave⟩, _, s₇, rfl, rfl, rfl⟩ := run
        obtain ⟨-, rfl⟩ := bind.unique hbind
        exact ⟨s₄, hbody, .ret hleave inside'⟩
    · rw [heq] at hstops
      refine .of_not_runs hstops fun op t run => ?_
      simp only [Lower.statement, Lower.function, hrefused, Lower.runs_bind, Lower.runs_modify,
        Lower.runs_inBlock] at run
      obtain ⟨_, _, rfl, _, _, rfl, _, _, ⟨-, _, ⟨formals, t, hbind, -⟩, -⟩, -⟩ := run
      exact hnot formals t hbind

private theorem Leads.of_class {name : String} {bases : List Expr} {keywords : List Keyword}
    {decorators : List Expr} {span : Option Span} (body : BodyLeads N stmts)
    (names : ∀ x ∈ Act.namesAll
      (acts s.inFunction (.mk (.classDef name bases keywords stmts decorators) span)), N x)
    (inside : s.nesting ≠ []) : Leads N fs s (.mk (.classDef name bases keywords stmts decorators) span) := by
  have opens : Opens s (.mk (.classDef name bases keywords stmts decorators) span) _ _ [stmts]
      s.pushClass State.popClass := .classDef
  refine .of_body (body (names_of_body opens names (by simp)) (List.cons_ne_nil _ _)) rfl (.enter opens) ?_
  intro op t run
  have inside' := nesting_ne_nil run inside
  simp only [Lower.statement, Lower.classDefinition, Lower.runs_bind, Lower.runs_modify,
    Lower.runs_pure] at run
  obtain ⟨_, s₁, rfl, slot, s₂, hslot, _, s₃, rfl, rfl, rfl⟩ := run
  obtain ⟨-, u, hbody, hleave⟩ := Lower.runs_region hslot
  exact ⟨u, hbody, .leave hleave inside' (.inr rfl)⟩

/-- A loop without an `else` part: the region of `e` comes first, and `p` is what happens between
it and the body. -/
theorem Leads.of_loop {e : Expr} {own : Head} {p : State → State}
    (hstops : st.stops fs s =
      (Lower.exprRegion e).after s fun _ t => stopsAll fs (p t).enter stmts)
    (opens : ∀ {x u t}, YieldRegion s e x u t →
      Opens s st own [⟨s.blocks.length, none⟩] [stmts] (p t) id)
    (parts : ∀ op t, Runs (Lower.statement st) s op t → ∃ first u second,
      Runs (Lower.exprRegion e) s first u ∧ Runs (Lower.region (Lower.body stmts)) (p u) second t)
    (body : BodyLeads N stmts) (names : ∀ x ∈ Act.namesAll (st.acts s.inFunction), N x)
    (inside : s.nesting ≠ []) : Leads N fs s st := by
  rcases Lower.after_cases (Lower.exprRegion e) s fun _ t => stopsAll fs (p t).enter stmts with
    ⟨slot, u, hfirst, heq⟩ | ⟨hnot, heq⟩
  · obtain ⟨-, x, v, region⟩ := Lower.runs_exprRegion hfirst
    refine .of_body (body (names_of_body (opens region) names (by simp)) (List.cons_ne_nil _ _))
      (hstops.trans heq) (.enter (opens region)) ?_
    intro op t run
    obtain ⟨first, _, second, hfirst', hsecond⟩ := parts op t run
    obtain ⟨-, rfl⟩ := hfirst.unique hfirst'
    obtain ⟨-, w, hbody, hleave⟩ := Lower.runs_region hsecond
    exact ⟨w, hbody, .leave hleave (nesting_ne_nil run inside) (.inl rfl)⟩
  · refine .of_not_runs (hstops.trans heq) fun op t run => ?_
    obtain ⟨first, u, -, hfirst, -⟩ := parts op t run
    exact hnot first u hfirst

private theorem Leads.of_for {name : String} {at_ span : Option Span} {iter : Expr}
    (body : BodyLeads N stmts) (names : ∀ x ∈ Act.namesAll
      (acts s.inFunction (.mk (.forIn (.mk (.name name) at_) iter stmts []) span)), N x)
    (inside : s.nesting ≠ []) : Leads N fs s (.mk (.forIn (.mk (.name name) at_) iter stmts []) span) := by
  refine .of_loop rfl (fun region => .forIn region) (fun op t run => ?_) body names inside
  simp only [Lower.statement, List.isEmpty_nil, Bool.not_true, Bool.false_eq_true, if_false,
    Lower.runs_bind, Lower.runs_targetName, Lower.runs_modify, Lower.runs_pure] at run
  obtain ⟨_, _, ⟨hname, rfl⟩, source, u, hsource, _, _, rfl, loop, _, hloop, rfl, rfl⟩ := run
  cases hname
  exact ⟨source, u, loop, hsource, hloop⟩

private theorem Leads.of_while {test : Expr} {span : Option Span} (body : BodyLeads N stmts)
    (names : ∀ x ∈ Act.namesAll (acts s.inFunction (.mk (.whileDo test stmts []) span)), N x)
    (inside : s.nesting ≠ []) : Leads N fs s (.mk (.whileDo test stmts []) span) := by
  refine .of_loop (p := id) rfl (fun region => .whileDo region) (fun op t run => ?_) body names inside
  simp only [Lower.statement, List.isEmpty_nil, Bool.not_true, Bool.false_eq_true, if_false,
    Lower.runs_bind, Lower.runs_pure] at run
  obtain ⟨condition, u, hcondition, loop, _, hloop, rfl, rfl⟩ := run
  exact ⟨condition, u, loop, hcondition, hloop⟩

private theorem Leads.of_if {test : Expr} {yes no : List Stmt} {span : Option Span}
    (one : BodyLeads N yes) (two : BodyLeads N no)
    (names : ∀ x ∈ Act.namesAll (acts s.inFunction (.mk (.ifElse test yes no) span)), N x)
    (inside : s.nesting ≠ []) : Leads N fs s (.mk (.ifElse test yes no) span) := by
  rcases Lower.after_cases (Lower.operand test) s (fun _ t => stopsAll fs t.enter yes ++
    (Lower.region (Lower.body yes)).after t fun _ u =>
      if no.isEmpty then [] else stopsAll fs u.enter no) with ⟨x, m, hx, heq⟩ | ⟨hnot, heq⟩
  · have opens : Opens s (.mk (.ifElse test yes no) span) _ _ (branches yes no) m id := .branch hx
    have hyes : LeadsAll N fs m.enter yes :=
      one (names_of_body opens names (by cases no <;> simp [branches])) (List.cons_ne_nil _ _)
    rcases Lower.after_cases (Lower.region (Lower.body yes)) m (fun _ u =>
      if no.isEmpty then [] else stopsAll fs u.enter no) with ⟨slot, u, hslot, heq'⟩ | ⟨hnot, heq'⟩
    · obtain ⟨rfl, v, hbody, hleave⟩ := Lower.runs_region hslot
      rw [heq'] at heq
      cases no with
      | nil =>
        rw [List.isEmpty_nil, if_pos rfl, List.append_nil] at heq
        refine .of_body hyes heq (.enter opens) fun op t run => ?_
        have inside' := nesting_ne_nil run inside
        simp only [Lower.statement, Lower.runs_bind, List.isEmpty_nil, if_true, Lower.runs_pure] at run
        obtain ⟨_, _, hx', _, _, hslot', rfl, rfl⟩ := run
        obtain ⟨rfl, rfl⟩ := hx.unique hx'
        obtain ⟨-, rfl⟩ := hslot.unique hslot'
        exact ⟨v, hbody, .leave hleave inside' (.inl rfl)⟩
      | cons first others =>
        have hno : LeadsAll N fs u.enter (first :: others) := by
          apply two _ (List.cons_ne_nil _ _)
          have hsites : u.sites = m.sites := ((Lower.body_lowers yes hbody).extension.region
            (State.left_of_leave? hleave)).sites
          rw [State.inFunction_congr m.enter (show u.enter.sites = m.enter.sites from hsites)]
          exact names_of_body opens names (by simp [branches])
        refine .of_branches hyes hno heq (.enter opens) hbody (.branch hleave) fun op t run => ?_
        have inside' := nesting_ne_nil run inside
        simp only [Lower.statement, Lower.runs_bind, List.isEmpty_cons, Bool.false_eq_true, if_false,
          Lower.runs_pure] at run
        obtain ⟨_, _, hx', _, _, hslot', _, _, hlast, rfl, rfl⟩ := run
        obtain ⟨rfl, rfl⟩ := hx.unique hx'
        obtain ⟨-, rfl⟩ := hslot.unique hslot'
        obtain ⟨-, w, hbody', hleave'⟩ := Lower.runs_region hlast
        exact ⟨w, hbody', .leave hleave' inside' (.inl rfl)⟩
    · rw [heq', List.append_nil] at heq
      refine .of_body hyes heq (.enter opens) fun op t run => ?_
      simp only [Lower.statement, Lower.runs_bind] at run
      obtain ⟨_, _, hx', slot, u, hslot, -⟩ := run
      obtain ⟨rfl, rfl⟩ := hx.unique hx'
      exact absurd hslot (hnot slot u)
  · refine .of_not_runs heq fun op t run => ?_
    simp only [Lower.statement, Lower.runs_bind] at run
    obtain ⟨x, t', hx, -⟩ := run
    exact hnot x t' hx

mutual

theorem leads : (st : Stmt) → {fs : List OpenFunction} → {s : State} →
    (∀ x ∈ Act.namesAll (st.acts s.inFunction), N x) → s.nesting ≠ [] → Leads N fs s st
  | .mk (.functionDef _ _ inner _ _) _, _, _, names, inside => .of_function (leadsAll inner) names inside
  | .mk (.classDef _ _ _ inner _) _, _, _, names, inside => .of_class (leadsAll inner) names inside
  | .mk (.forIn target iter inner []) span, fs, s, names, inside => by
    cases hname : target.name? with
    | none =>
      refine .of_not_runs (by simp [stops, hname]) fun op t run => ?_
      simp [Lower.statement, Lower.runs_targetName, hname] at run
    | some name =>
      obtain ⟨at_, rfl⟩ := Expr.eq_name_of_name? hname
      exact .of_for (leadsAll inner) names inside
  | .mk (.forIn target iter inner (_ :: _)) span, fs, s, names, inside =>
    .of_not_runs (by cases h : target.name? <;> simp [stops, h]) (by simp [Lower.statement])
  | .mk (.whileDo _ inner []) _, _, _, names, inside => .of_while (leadsAll inner) names inside
  | .mk (.whileDo test inner (_ :: _)) span, fs, s, names, inside =>
    .of_not_runs rfl (by simp [Lower.statement])
  | .mk (.ifElse _ yes no) _, _, _, names, inside => .of_if (leadsAll yes) (leadsAll no) names inside
  | .mk (.ret value) span, fs, s, names, _ => .of_simple names rfl nofun (by simp)
  | .mk (.assign targets value) span, fs, s, names, _ => .of_simple names rfl nofun (by simp)
  | .mk (.augAssign target op value) span, fs, s, names, _ => .of_simple names rfl nofun (by simp)
  | .mk (.annAssign target annot value simple) span, fs, s, names, _ =>
    .of_simple names rfl nofun (by simp)
  | .mk (.expr value) span, fs, s, names, _ => .of_simple names rfl nofun (by simp)
  | .mk .pass span, fs, s, names, _ => .of_simple names rfl nofun (by simp)
  | .mk .breakLoop span, fs, s, names, _ => .of_simple names rfl nofun (by simp)
  | .mk .continueLoop span, fs, s, names, _ => .of_simple names rfl nofun (by simp)
  | .mk (.bare kind) span, fs, s, names, _ => .of_simple names rfl nofun (by simp)

theorem leadsAll : (stmts : List Stmt) → {fs : List OpenFunction} → {s : State} →
    (∀ x ∈ Act.namesAll (actsAll s.inFunction stmts), N x) → s.nesting ≠ [] → LeadsAll N fs s stmts
  | [], fs, s, names, inside => by
    refine ⟨.singleton _, rfl, ?_⟩
    intro u t run
    simp only [Lower.body, Lower.runs_pure] at run
    obtain ⟨-, rfl⟩ := run
    rfl
  | st :: rest, fs, s, names, inside => by
    rw [actsAll, Act.namesAll_append, List.forall_mem_append] at names
    have first : Leads N fs s st := leads st names.1 inside
    rcases Lower.after_cases (Lower.statement st) s fun op t => stopsAll fs (t.emit op) rest with
      ⟨op, t, run, heq⟩ | ⟨hnot, heq⟩
    · have ext := (Lower.statement_lowers st run .nil).extension
      have others : LeadsAll N fs (t.emit op) rest := by
        apply leadsAll rest
        · rw [State.inFunction_congr s ext.sites]
          exact names.2
        · rw [ext.nesting]
          exact inside
      have hstops : stopsAll fs s (st :: rest) =
          (⟨s, fs⟩ :: st.stops fs s) ++ stopsAll fs (t.emit op) rest := by
        rw [stopsAll, heq]
        rfl
      refine ⟨?_, by rw [hstops]; rfl, ?_⟩
      · rw [hstops]
        refine first.chain.append others.chain fun p hp q hq => ?_
        rw [others.head] at hq
        cases hq
        exact first.last op t run p hp
      · intro u t' hbody
        simp only [Lower.body, Lower.runs_bind, Lower.runs_emit] at hbody
        obtain ⟨op', t₁, hst, _, _, rfl, hrest⟩ := hbody
        obtain ⟨rfl, rfl⟩ := run.unique hst
        rw [hstops, List.getLast?_append, others.last u t' hrest, Option.some_or]
    · have hstops : stopsAll fs s (st :: rest) = ⟨s, fs⟩ :: st.stops fs s := by
        rw [stopsAll, heq, List.append_nil]
      refine ⟨by rw [hstops]; exact first.chain, by rw [hstops]; rfl, ?_⟩
      intro u t' hbody
      simp only [Lower.body, Lower.runs_bind] at hbody
      obtain ⟨op, t, run, -⟩ := hbody
      exact absurd run (hnot op t)

end

/-- The points of a module follow each other from its start, and if its body is lowered the last of them
is where that ends. -/
theorem trace_leads {stmts : List Stmt} (names : ∀ x ∈ Act.namesAll (actsAll false stmts), N x) :
    LeadsAll N [] State.initial stmts :=
  leadsAll stmts names (List.cons_ne_nil _ _)

/-- What holds at the start and is kept by every step holds at all points. -/
theorem trace_induction {P : Stop → Prop} {stmts : List Stmt}
    (names : ∀ x ∈ Act.namesAll (actsAll false stmts), N x) (start : P ⟨State.initial, []⟩)
    (step : ∀ p q, Stop.Next N p q → P p → P q) : ∀ p ∈ trace stmts, P p := by
  have leads := trace_leads names
  refine leads.chain.induction P _ (fun p q next hp => step p q next hp) fun hne => ?_
  have hhead := leads.head
  rw [List.head?_eq_some_head hne, Option.some.injEq] at hhead
  rw [hhead]
  exact start

end Stmt

private theorem Stop.Next.reached {N : String → Prop} {p q : Stop} (next : Stop.Next N p q)
    (h : p.state.Reached) : q.state.Reached := by
  cases next with
  | simple one _ => exact (one.reached h).emit _
  | enter opens => exact (opens.reached h).1.enter
  | branch left => exact (h.leave left).enter
  | leave left _ closed =>
    rcases closed with rfl | rfl
    · exact (h.leave left).emit _
    · exact (h.leave left).popClass.emit _
  | call bind _ => exact Lower.reached_of_bindParams bind (h.declare _ _).pushFunction.enter
  | ret left _ => exact (h.leave left).popFunction.emit _

theorem Stmt.trace_reached {stmts : List Stmt} : ∀ p ∈ trace stmts, p.state.Reached :=
  trace_induction (N := fun _ => True) (fun _ _ => trivial) (State.Reached.start.enter)
    fun _ _ next h => next.reached h

end RegionIR
