import RegionIR.Proofs.Phases
/-!
# Stores behind a jump

A return, break or continue leaves its block, so what stands behind it is never reached. Promotion
stores a value at the end of the block that holds it, and does not look at how that block ends. If no
statement stands behind a jump, then an operator does so exactly where a block ends in a jump and holds
the value of a variable that moves to memory later on.
-/
namespace RegionIR

open Operator

def jumping : List String := ["return", "break", "continue"]

def Head.isJump (h : Head) : Bool := h.dialect = .py ∧ h.name ∈ jumping

def Operator.isJump (op : Operator) : Bool := op.head.isJump

/-- The jumps with operators of the same block behind them. -/
def Walk.strays : Walk (List Operator) Operator :=
  .behind fun op rest => if op.isJump && !rest.isEmpty then [op] else []

namespace Operator

def jumpsLastRegions (rs : List Region) : Bool := (Walk.strays.regions [] rs).isEmpty

/-- In every block below the operator, a jump is the last one. -/
def jumpsLast (op : Operator) : Bool := jumpsLastRegions op.regions

def jumpsLastAll (ops : List Operator) : Bool := (Walk.strays.items ops ops).isEmpty

def endsInJump (ops : List Operator) : Bool := ops.getLast?.any isJump

end Operator

namespace Stmt

def isJump : Stmt → Bool
  | mk form _ =>
    match form with
    | .ret _ => true
    | .breakLoop => true
    | .continueLoop => true
    | _ => false

mutual

/-- In every list of statements below the statement, a jump is the last one. -/
def jumpsLast : Stmt → Bool
  | mk form _ =>
    match form with
    | .functionDef _ _ body _ _ => jumpsLastAll body
    | .classDef _ _ _ body _ => jumpsLastAll body
    | .forIn _ _ body orelse => jumpsLastAll body && jumpsLastAll orelse
    | .whileDo _ body orelse => jumpsLastAll body && jumpsLastAll orelse
    | .ifElse _ body orelse => jumpsLastAll body && jumpsLastAll orelse
    | _ => true
termination_by structural s => s

def jumpsLastAll : List Stmt → Bool
  | [] => true
  | s :: rest => s.jumpsLast && (!s.isJump || rest.isEmpty) && jumpsLastAll rest
termination_by structural ss => ss

end

def endsInJump (stmts : List Stmt) : Bool := stmts.getLast?.any isJump

end Stmt

/-- The variables that the statements of a block bind themselves, not inside blocks of their own. -/
def Act.binds (acts : List Act) : List String :=
  acts.filterMap fun
    | .bind name => some name
    | _ => none

namespace Stmt

/-- The variables that are stranded in a block: it ends in a jump, and with the one value that it gives
to a variable, which has none before, and which is in memory at the end of the scope. -/
def stranded (final : String → Phase) (inFunction : Bool) (phase : String → Phase)
    (body : List Stmt) : List String :=
  if endsInJump body then
    (Act.binds (actsAll inFunction body)).filter fun a =>
      phase a = .unbound ∧ Phase.after phase (accessesAll inFunction body) a = .bound ∧ final a = .moved
  else []

mutual

/-- No variable is stranded in a block below the statement. The phases are those of the variables of
the scope, before the statement and at the end of the scope. -/
def unstranded (final : String → Phase) (inFunction : Bool) (phase : String → Phase) : Stmt → Bool
  | mk form _ =>
    match form with
    | .functionDef _ params body _ _ =>
      let start := Phase.atEntry params.names
      unstrandedAll (Phase.after start (accessesAll true body)) true start body
    | .classDef _ _ _ body _ =>
      (stranded final false phase body).isEmpty && unstrandedAll final false phase body
    | .forIn target _ body _ =>
      let phase := Phase.after phase (target.name?.toList.map .touch)
      (stranded final inFunction phase body).isEmpty && unstrandedAll final inFunction phase body
    | .whileDo _ body _ =>
      (stranded final inFunction phase body).isEmpty && unstrandedAll final inFunction phase body
    | .ifElse _ yes no =>
      let next := Phase.after phase (accessesAll inFunction yes)
      (stranded final inFunction phase yes).isEmpty && unstrandedAll final inFunction phase yes &&
        ((stranded final inFunction next no).isEmpty && unstrandedAll final inFunction next no)
    | _ => true
termination_by structural s => s

def unstrandedAll (final : String → Phase) (inFunction : Bool) (phase : String → Phase) :
    List Stmt → Bool
  | [] => true
  | s :: rest =>
    s.unstranded final inFunction phase &&
      unstrandedAll final inFunction (Phase.after phase (Act.accessesAll (acts inFunction s))) rest
termination_by structural ss => ss

end

def unstrandedBodies (final : String → Phase) (inFunction : Bool) :
    (String → Phase) → List (List Stmt) → Bool
  | _, [] => true
  | phase, body :: rest =>
    (stranded final inFunction phase body).isEmpty && unstrandedAll final inFunction phase body &&
      unstrandedBodies final inFunction (Phase.after phase (accessesAll inFunction body)) rest

/-- No variable is stranded in the statements of a module. -/
def nothingStranded (stmts : List Stmt) : Bool :=
  let start := Phase.atEntry []
  unstrandedAll (Phase.after start (accessesAll false stmts)) false start stmts

end Stmt

namespace Operator

private theorem jumpsLastAll_cons (op : Operator) (rest : List Operator) : jumpsLastAll (op :: rest) =
    (op.jumpsLast && (!op.isJump || rest.isEmpty) && jumpsLastAll rest) := by
  rw [jumpsLastAll, Walk.strays, Walk.behind_cons, isEmpty_append, isEmpty_append]
  show (_ && op.jumpsLast && jumpsLastAll rest) = _
  cases op.isJump <;> cases rest <;> simp

private theorem jumpsLastAll_append (ops others : List Operator) :
    jumpsLastAll (ops ++ others) =
      (jumpsLastAll ops && jumpsLastAll others && (!endsInJump ops || others.isEmpty)) := by
  induction ops with
  | nil => simp [jumpsLastAll, endsInJump]
  | cons op ops ih =>
    rw [List.cons_append, jumpsLastAll_cons, ih, jumpsLastAll_cons]
    cases ops with
    | nil =>
      simp only [endsInJump, show jumpsLastAll [] = true from rfl, List.nil_append, List.isEmpty_nil,
        List.getLast?_nil, List.getLast?_singleton, Option.any_none, Option.any_some]
      cases op.jumpsLast <;> cases op.isJump <;> cases others.isEmpty <;> cases jumpsLastAll others <;> rfl
    | cons next ops =>
      have hlast : endsInJump (op :: next :: ops) = endsInJump (next :: ops) := by
        simp [endsInJump, List.getLast?_cons]
      rw [hlast]
      simp only [List.cons_append, List.isEmpty_cons, Bool.or_false]
      cases op.jumpsLast <;> cases op.isJump <;> simp

private theorem jumpsLastRegions_append (rs others : List Region) :
    jumpsLastRegions (rs ++ others) = (jumpsLastRegions rs && jumpsLastRegions others) := by
  rw [jumpsLastRegions, Walk.regions_append, isEmpty_append]
  rfl

@[simp] theorem jumpsLastRegions_single (label : Option Label) (ops : List Operator)
    (rs : List Region) : jumpsLastRegions (.single label ops :: rs) =
      (jumpsLastAll ops && jumpsLastRegions rs) := by
  rw [jumpsLastRegions, Walk.strays, Walk.behind_single, isEmpty_append]
  rfl

private theorem jumpsLastAll_leaves {hs : List Head} (h : ∀ x ∈ hs, x.isJump = false) :
    jumpsLastAll (hs.map leaf) = true := by
  induction hs with
  | nil => rfl
  | cons x hs ih =>
    have hx : (leaf x).isJump = false := h x List.mem_cons_self
    have hbelow : (leaf x).jumpsLast = true := rfl
    rw [List.map_cons, jumpsLastAll_cons, hx, hbelow, ih fun y hy => h y (List.mem_cons_of_mem _ hy)]
    rfl

private theorem endsInJump_leaves {hs : List Head} (h : ∀ x ∈ hs, x.isJump = false) :
    endsInJump (hs.map leaf) = false := by
  rw [endsInJump, List.getLast?_map]
  cases hlast : hs.getLast? with
  | none => rfl
  | some x => exact h x (List.mem_of_getLast? hlast)

private theorem jumpsLastAll_step {hs : List Head} (h : ∀ x ∈ hs, x.isJump = false) (op : Operator)
    (ops : List Operator) : jumpsLastAll (hs.map leaf ++ op :: ops) =
      (op.jumpsLast && (!op.isJump || ops.isEmpty) && jumpsLastAll ops) := by
  rw [jumpsLastAll_append, jumpsLastAll_leaves h, endsInJump_leaves h, jumpsLastAll_cons]
  simp

end Operator

private theorem Late.not_jump (ls : List Late) : ∀ x ∈ ls.map Late.head, x.isJump = false := by
  intro x hx
  obtain ⟨l, -, rfl⟩ := List.mem_map.mp hx
  rfl

private theorem Flat.not_jump {s t : State} {reads : List String} {hs : List Head} {pool : List ValueId}
    (flat : Flat s reads hs pool t) : ∀ x ∈ hs, x.isJump = false := by
  induction flat with
  | start => simp
  | load flat home ih =>
    intro x hx
    rcases List.mem_append.mp hx with hx | hx
    · exact ih x hx
    · rw [List.mem_singleton.mp hx]
      rfl
  | value flat home ih => exact ih
  | @op _ _ _ _ h ty flat computes known ih =>
    intro x hx
    rcases List.mem_append.mp hx with hx | hx
    · exact ih x hx
    · rw [List.mem_singleton.mp hx]
      have hname := computes.name
      simp only [computing, List.mem_cons, List.not_mem_nil, or_false] at hname
      rcases hname with hn | hn | hn | hn | hn | hn <;> simp [Head.isJump, jumping, hn]
  | drop flat known used ih => exact ih

private theorem Simple.isJump {s t : State} {st : Stmt} {own : Head} (one : Simple s st own t) :
    own.isJump = st.isJump := by
  have hassign : ∀ (m : State) (name : String) (x : Operand) (declared : Option Ty),
      (m.assign name x declared).1.isJump = false := by
    intro m name x declared
    unfold State.assign
    split
    · cases declared <;> simp [Head.isJump, jumping]
    · rfl
    · rfl
  cases one with
  | ret => simp [Head.isJump, jumping, Stmt.isJump]
  | expr => rfl
  | pass => rfl
  | breakLoop => rfl
  | continueLoop => rfl
  | declare => simp [Head.isJump, jumping, Stmt.isJump, fieldHead]
  | assign => exact hassign _ _ _ _
  | annotate => exact hassign _ _ _ _
  | augAssign => rfl

private theorem Opens.not_jump {s t : State} {st : Stmt} {own : Head} {slots : List Slot}
    {bodies : List (List Stmt)} {close : State → State} (opens : Opens s st own slots bodies t close) :
    own.isJump = false ∧ st.isJump = false := by
  cases opens <;> exact ⟨rfl, rfl⟩

private theorem functionHead_not_jump (name : String) (decorators : List Expr)
    (formals : List (ValueId × Ty))
    (result : Ty) : (functionHead name decorators formals result).isJump = false := by
  simp [Head.isJump, (functionHead_opcode name decorators formals result).1]

private theorem last_of_step (hs : List Head) {op : Operator} {ops : List Operator} {st : Stmt}
    {stmts : List Stmt} (hop : op.isJump = st.isJump)
    (hops : ops.getLast?.map isJump = stmts.getLast?.map Stmt.isJump) :
    (hs.map leaf ++ op :: ops).getLast?.map isJump = (st :: stmts).getLast?.map Stmt.isJump := by
  rw [List.getLast?_append_cons, List.getLast?_cons, List.getLast?_cons]
  cases h : ops.getLast? <;> cases h' : stmts.getLast? <;> simp_all

private theorem Grows.last {Z : List String} {s s' : State} {stmts : List Stmt} {ops : List Operator}
    (grows : Grows Z s stmts s' ops) : ops.getLast?.map isJump = stmts.getLast?.map Stmt.isJump := by
  induction grows using Grows.along with
  | nil => rfl
  | simple one gains rest ih => exact last_of_step _ one.isJump ih
  | compound opens opened inner retro rest ih =>
    exact last_of_step _ (opens.not_jump.1.trans opens.not_jump.2.symm) ih
  | function accepted bind inner leave rest ih =>
    exact last_of_step [] (functionHead_not_jump _ _ _ _) ih

private theorem Grows.endsInJump {Z : List String} {s s' : State} {stmts : List Stmt}
    {ops : List Operator}
    (grows : Grows Z s stmts s' ops) : Operator.endsInJump ops = Stmt.endsInJump stmts := by
  have hlast := grows.last
  unfold Operator.endsInJump Stmt.endsInJump
  cases h : ops.getLast? <;> cases h' : stmts.getLast? <;> simp_all

private theorem Grows.isEmpty {Z : List String} {s s' : State} {stmts : List Stmt} {ops : List Operator}
    (grows : Grows Z s stmts s' ops) : ops.isEmpty = stmts.isEmpty := by
  have hlast := grows.last
  cases ops <;> cases stmts <;> simp_all [List.getLast?_cons]

private theorem Act.mem_binds {a : String} {acts : List Act} :
    a ∈ Act.binds acts ↔ Act.bind a ∈ acts := by
  simp only [binds, List.mem_filterMap]
  constructor
  · rintro ⟨act, hact, h⟩
    cases act <;> simp_all
  · intro h
    exact ⟨_, h, rfl⟩

private theorem Act.bind_mem_accessesAll {a : String} {acts : List Act} (h : Act.bind a ∈ acts) :
    Access.bind a ∈ Act.accessesAll acts := by
  induction acts with
  | nil => simp at h
  | cons act acts ih =>
    rw [Act.accessesAll, List.mem_append]
    rcases List.mem_cons.mp h with rfl | h
    · exact .inl (by simp [Act.accesses])
    · exact .inr (ih h)

namespace Settles

variable {m t : State} {args : List ValueId} {writes : List Act} {own : Head} {a : String}

private theorem bind_of_pending {v : ValueId} (h : Settles m args writes own t)
    (hp : t.home a = .pending m.current v) :
    m.home a = .pending m.current v ∨ Act.bind a ∈ writes := by
  cases h with
  | plain => exact .inl hp
  | define dialect opcode results takes write =>
    rename_i name value
    by_cases ha : a = name
    · subst ha
      exact .inr List.mem_cons_self
    · rw [write.home_of_ne ha] at hp
      exact .inl hp
  | store _ _ write => exact .inl (write.pending_before hp)
  | through _ _ write => exact .inl (write.pending_before hp)

/-- What happens to a variable that has no value: it gets one in the current block if it is bound, and
moves to memory or stays without one otherwise. -/
theorem home_of_undefined (h : Settles m args writes own t) (hm : m.home a = .undefined) :
    (Act.bind a ∈ writes ∧ ∃ v, t.home a = .pending m.current v) ∨
      Act.bind a ∉ writes ∧ (t.home a = .undefined ∨ t.home a = .memory) := by
  cases h with
  | plain => exact .inr ⟨by simp, .inl hm⟩
  | define dialect opcode results takes write =>
    rename_i name value
    by_cases ha : a = name
    · subst ha
      cases write with
      | define _ _ _ _ home => exact .inl ⟨List.mem_cons_self, value, by rw [home, if_pos rfl]⟩
    · rw [write.home_of_ne ha]
      exact .inr ⟨by simpa using ha, .inl hm⟩
  | store takes known write =>
    rename_i name x ty
    have ha : a ≠ name := by
      intro ha
      subst ha
      exact known hm
    rw [write.home_of_ne ha]
    exact .inr ⟨by simpa using ha, .inl hm⟩
  | through quiet takes write =>
    rename_i name
    refine .inr ⟨by simp, ?_⟩
    rw [write.moves.1 a]
    split
    · exact .inr rfl
    · exact .inl hm

end Settles

namespace Opening

variable {s m : State} {pre : List Act} {hs : List Head} {slots : List Slot} {regions : List Region}
  {args : List ValueId}

private theorem not_bind (h : Opening s pre hs slots regions args m) (a : String) :
    Act.bind a ∉ pre := by
  cases h with
  | inline flat => simp
  | loop flat leave written =>
    obtain ⟨rfl, -⟩ | ⟨name, rfl, -⟩ := written <;> simp

theorem pending_before (h : Opening s pre hs slots regions args m) {a : String} {b : Nat} {v : ValueId}
    (hp : m.home a = .pending b v) : s.home a = .pending b v := by
  cases h with
  | inline flat => rwa [flat.appended.home] at hp
  | loop flat leave written =>
    obtain ⟨-, -, hhome⟩ := flat.yields leave
    obtain ⟨-, rfl⟩ | ⟨name, -, write⟩ := written
    · rwa [hhome] at hp
    · rw [← hhome]
      exact write.pending_before hp

end Opening

theorem Opened.pending_before {s t u m : State} {st : Stmt} {own : Head} {slots : List Slot}
    {bodies : List (List Stmt)} {close : State → State} {pre : List Act} {hs : List Head}
    {regions : List Region} (h : Opened s st own slots bodies t close pre hs regions m)
    (inner : Extends none t u) (placed : s.Placed) {a : String} {v : ValueId}
    (hp : (close u).home a = .pending s.current v) : s.home a = .pending s.current v := by
  have hcurrent := placed.current_lt
  have hlength := h.opening.extension.length
  rcases (h.bodies inner).origin a _ v hp with hm | hm | hm
  · exact h.opening.pending_before hm
  · simp at hm
  · omega

private theorem Opened.not_bind {s t m : State} {st : Stmt} {own : Head} {slots : List Slot}
    {bodies : List (List Stmt)} {close : State → State} {pre : List Act} {hs : List Head}
    {regions : List Region} (h : Opened s st own slots bodies t close pre hs regions m) (a : String) :
    Act.bind a ∉ st.acts s.inFunction := by
  rw [h.acts h.opening.extension.sites, List.mem_append, not_or]
  exact ⟨h.opening.not_bind a, by simp⟩

private theorem Lowers.bind_of_pending :
    ∀ {s s' : State} {stmts : List Stmt}, Lowers s stmts s' → s.Placed →
    ∀ {a : String} {v : ValueId}, s'.home a = .pending s.current v →
    s.home a = .pending s.current v ∨ Act.bind a ∈ Stmt.actsAll s.inFunction stmts
  | _, _, _, .nil, _, _, _, hp => .inl hp
  | s, _, _, @Lowers.simple _ t _ st own stmts one rest, placed, a, v, hp => by
    obtain ⟨s₀, reads, hs, args, m, writes, same, flat, settles, acts⟩ := one.settles
    have hcur : m.current = s.current := by rw [flat.appended.current, same.current]
    have hnext := one.extension.emitted (.ofHead own)
    rw [← hnext.current] at hp
    have hrest := rest.bind_of_pending (placed.extension hnext) hp
    rw [State.inFunction_congr s hnext.sites, hnext.current] at hrest
    rw [Stmt.actsAll, List.mem_append, acts, List.mem_append]
    rcases hrest with hp' | hbind
    · have hend : t.home a = .pending m.current v := by
        rw [hcur]
        exact hp'
      rcases settles.bind_of_pending hend with hm | hbind
      · rw [hcur, flat.appended.home, same.home] at hm
        exact .inl hm
      · exact .inr (.inl (.inr hbind))
    · exact .inr (.inr hbind)
  | s, _, _, @Lowers.compound _ t u _ st own slots more bodies close stmts opens regions rest, placed,
      a, v, hp => by
    obtain ⟨pre, hs, pres, m, opened⟩ := opens.opened
    have hnext := opened.emitted regions.extension (.ofHead own (slots ++ more))
    rw [← hnext.current] at hp
    have hrest := rest.bind_of_pending (placed.extension hnext) hp
    rw [State.inFunction_congr s hnext.sites, hnext.current] at hrest
    rw [Stmt.actsAll, List.mem_append]
    rcases hrest with hp' | hbind
    · exact .inl (opened.pending_before regions.extension placed hp')
    · exact .inr (.inr hbind)
  | s, _, _, @Lowers.function _ t u v' _ name params body stmts decorators returns span formals accepted
      bind inner leave rest, placed, a, v, hp => by
    have binds := Lower.binds_of_bindParams bind
    have left := State.left_of_leave? leave
    have houter := binds.home_popFunction inner.extension.toFrame left
    have hnext := binds.emitted inner.extension left
      (.ofHead (functionHead name decorators formals (annotatedTy? returns))
        [⟨s.blocks.length, some ⟨entryLabel, formals⟩⟩])
    rw [← hnext.current] at hp
    have hrest := rest.bind_of_pending (placed.extension hnext) hp
    rw [State.inFunction_congr s hnext.sites, hnext.current] at hrest
    rw [Stmt.actsAll, List.mem_append]
    rcases hrest with hp' | hbind
    · exact .inl ((houter a).symm.trans hp')
    · exact .inr (.inr hbind)

private theorem Grows.current_of_bind {Z : List String} {s s' : State} {stmts : List Stmt}
    {ops : List Operator}
    (grows : Grows Z s stmts s' ops) (placed : s.Placed) {a : String} {b : Nat} {v : ValueId}
    (hs : s.home a = .undefined) (hbind : Act.bind a ∈ Stmt.actsAll s.inFunction stmts)
    (hp : s'.home a = .pending b v) : b = s.current := by
  induction grows using Grows.along with
  | nil => simp [Stmt.actsAll] at hbind
  | @simple s t st own stmts _ _ one gains rest ih =>
    obtain ⟨s₀, reads, hs', args, m, writes, same, flat, settles, acts⟩ := one.settles
    have hcur : m.current = s.current := by rw [flat.appended.current, same.current]
    have hnext := one.extension.emitted (.ofHead own)
    have hafter := rest.lowers.extension
    have hm : m.home a = .undefined := by rw [flat.appended.home, same.home, hs]
    rw [Stmt.actsAll, acts, List.mem_append, List.mem_append] at hbind
    rcases settles.home_of_undefined hm with ⟨-, w, hw⟩ | ⟨hnone, hu | hu⟩
    · rcases hafter.pending a _ w hw with h | h <;> rw [hp] at h
      · cases h
        exact hcur
      · exact Home.noConfusion h
    · have hrest : Act.bind a ∈ Stmt.actsAll s.inFunction stmts := by
        rcases hbind with (h | h) | h
        · simp at h
        · exact absurd h hnone
        · exact h
      rw [← State.inFunction_congr s hnext.sites] at hrest
      rw [← hnext.current]
      exact ih (placed.extension hnext) hu hrest
    · have hmemory := hafter.memory a hu
      rw [hp] at hmemory
      exact Home.noConfusion hmemory
  | @compound s t m u st own slots more bodies close _ _ _ _ stmts _ _ opens opened inner retro rest ih =>
    have hnext := opened.emitted inner.lowers.extension (.ofHead own (slots ++ more))
    have hrest : Act.bind a ∈ Stmt.actsAll s.inFunction stmts := by
      rw [Stmt.actsAll, List.mem_append] at hbind
      exact hbind.resolve_left (opened.not_bind a)
    rw [← State.inFunction_congr s hnext.sites] at hrest
    cases hu : ((close u).emit (.ofHead own (slots ++ more))).home a with
    | undefined =>
      rw [← hnext.current]
      exact ih (placed.extension hnext) hu hrest
    | pending c w =>
      -- a variable with a value moves to memory when it is bound again
      have hphase := (rest.tally (placed.extension hnext) a (by simp [hp])).1.phase
      rw [hp, hu, show (Home.pending c w).phase = .bound from rfl, Phase.foldl_step_bound,
        if_neg] at hphase
      · simp [Home.phase] at hphase
      · rintro ⟨hcount, -⟩
        exact List.count_eq_zero.mp hcount (Act.bind_mem_accessesAll hrest)
    | memory =>
      have hmemory := rest.lowers.extension.memory a hu
      rw [hp] at hmemory
      exact Home.noConfusion hmemory
  | @function s t u _ name params body stmts decorators returns span formals inside ops accepted bind inner
      leave rest ih =>
    have binds := Lower.binds_of_bindParams bind
    have left := State.left_of_leave? leave
    have houter := binds.home_popFunction inner.lowers.extension.toFrame left
    have hnext := binds.emitted inner.lowers.extension left
      (.ofHead (functionHead name decorators formals (annotatedTy? returns))
        [⟨s.blocks.length, some ⟨entryLabel, formals⟩⟩])
    have hrest : Act.bind a ∈ Stmt.actsAll s.inFunction stmts := by
      rw [Stmt.actsAll, List.mem_append] at hbind
      exact hbind.resolve_left (by simp [Stmt.acts])
    rw [← State.inFunction_congr s hnext.sites] at hrest
    rw [← hnext.current]
    exact ih (placed.extension hnext) ((houter a).trans hs) hrest

/-- The variables whose value a block holds at its end. -/
theorem Grows.held_iff {Z : List String} {s s' : State} {stmts : List Stmt} {ops : List Operator}
    (grows : Grows Z s stmts s' ops) (placed : s.Placed) {a : String}
    (free : ∀ v, s.home a ≠ .pending s.current v) :
    (∃ v, s'.home a = .pending s.current v) ↔
      s.phases a = .unbound ∧ s'.phases a = .bound ∧ a ∈ Act.binds (Stmt.actsAll s.inFunction stmts) := by
  rw [Act.mem_binds]
  unfold State.phases
  constructor
  · rintro ⟨v, hv⟩
    have hext := grows.lowers.extension
    have hbind := (grows.lowers.bind_of_pending placed hv).resolve_left (free v)
    refine ⟨?_, by rw [hv]; rfl, hbind⟩
    rw [(hext.undefined_or_pending hv).resolve_right (free v)]
    rfl
  · rintro ⟨hs, hs', hbind⟩
    cases hstart : s.home a with
    | undefined =>
      cases hend : s'.home a with
      | undefined => simp [hend, Home.phase] at hs'
      | pending b v =>
        have hb := grows.current_of_bind placed hstart hbind hend
        exact ⟨v, by rw [hb]⟩
      | memory => simp [hend, Home.phase] at hs'
    | pending b v => simp [hstart, Home.phase] at hs
    | memory => simp [hstart, Home.phase] at hs

private theorem isEmpty_of_forall {α : Type} {l : List α} (h : ∀ x, x ∉ l) : l.isEmpty = true := by
  rw [List.isEmpty_iff]
  exact List.eq_nil_iff_forall_not_mem.mpr h

/-- A block that ends in a jump gets no store behind it exactly if nothing is stranded in it. -/
theorem Grows.stranded_eq {Z : List String} {s t : State} {stmts : List Stmt} {ops : List Operator}
    {ls : List Late} {final : String → Phase} (grows : Grows Z s.enter stmts t ops) (placed : s.Placed)
    (complete : ∀ a, a ∈ Z ↔ final a = .moved) (moved : ∀ a, t.home a = .memory → a ∈ Z)
    (late : Retro (fun a v => t.home a = .pending s.blocks.length v ∧ a ∈ Z) ls) :
    (!Operator.endsInJump ops || ls.isEmpty) =
      (Stmt.stranded final s.inFunction s.phases stmts).isEmpty := by
  rw [grows.endsInJump, Stmt.stranded]
  cases Stmt.endsInJump stmts with
  | false => simp
  | true =>
    have hfree : ∀ a v, s.enter.home a ≠ .pending s.enter.current v := by
      intro a v hp
      exact absurd (placed.pending a _ v hp) (lt_irrefl _)
    have hphases : t.phases = Phase.after s.phases (Stmt.accessesAll s.inFunction stmts) :=
      grows.phases_eq placed.enter moved
    have hheld : ∀ a, (∃ v, t.home a = .pending s.blocks.length v) ↔
        s.phases a = .unbound ∧ t.phases a = .bound ∧
          a ∈ Act.binds (Stmt.actsAll s.inFunction stmts) := by
      intro a
      exact grows.held_iff placed.enter (hfree a)
    rw [Bool.not_true, Bool.false_or, if_pos rfl, Bool.eq_iff_iff, ← hphases]
    constructor
    · intro hnil
      rw [List.isEmpty_iff] at hnil
      apply isEmpty_of_forall
      intro a ha
      rw [List.mem_filter, decide_eq_true_eq] at ha
      obtain ⟨v, hv⟩ := (hheld a).mpr ⟨ha.2.1, ha.2.2.1, ha.1⟩
      obtain ⟨ty, hmem⟩ := (late.mem a v).mpr ⟨hv, (complete a).mpr ha.2.2.2⟩
      rw [hnil] at hmem
      simp at hmem
    · intro hnone
      rw [List.isEmpty_iff, List.filter_eq_nil_iff] at hnone
      rw [late.eq_nil, List.isEmpty_nil]
      rintro a v ⟨hv, hz⟩
      obtain ⟨hstart, hend, hbind⟩ := (hheld a).mp ⟨v, hv⟩
      apply hnone a hbind
      rw [decide_eq_true_eq]
      exact ⟨hstart, hend, (complete a).mp hz⟩

private theorem Simple.unstranded {s t : State} {st : Stmt} {own : Head} (one : Simple s st own t)
    (final : String → Phase) (inFunction : Bool) (phase : String → Phase) :
    st.unstranded final inFunction phase = true := by
  cases one <;> rfl

private theorem Opens.unstranded_eq {s t : State} {st : Stmt} {own : Head} {slots : List Slot}
    {bodies : List (List Stmt)} {close : State → State} (opens : Opens s st own slots bodies t close)
    (final : String → Phase) : st.unstranded final s.inFunction s.phases =
      Stmt.unstrandedBodies final t.inFunction t.phases bodies := by
  obtain ⟨hin, hphases⟩ := Prod.ext_iff.mp opens.entering
  dsimp only at hin hphases
  rw [hin, hphases]
  cases opens with
  | @branch _ _ _ no =>
    cases no with
    | nil => simp [Stmt.unstranded, branches, Stmt.unstrandedBodies, Stmt.stranded, Stmt.endsInJump,
        Stmt.unstrandedAll, Stmt.entering]
    | cons first others => simp [Stmt.unstranded, branches, Stmt.unstrandedBodies, Stmt.entering]
  | whileDo => simp [Stmt.unstranded, Stmt.unstrandedBodies, Stmt.entering]
  | forIn => simp [Stmt.unstranded, Stmt.unstrandedBodies, Stmt.entering]
  | classDef => simp [Stmt.unstranded, Stmt.unstrandedBodies, Stmt.entering]

private theorem Opens.jumpsLast {s t : State} {st : Stmt} {own : Head} {slots : List Slot}
    {bodies : List (List Stmt)} {close : State → State} (opens : Opens s st own slots bodies t close)
    (h : st.jumpsLast = true) : ∀ body ∈ bodies, Stmt.jumpsLastAll body = true := by
  intro body hbody
  cases opens with
  | @branch _ test yes no x _ run =>
    rw [Stmt.jumpsLast, Bool.and_eq_true] at h
    unfold branches at hbody
    split at hbody
    · rw [List.mem_singleton.mp hbody]
      exact h.1
    · rcases List.mem_pair.mp hbody with rfl | rfl
      · exact h.1
      · exact h.2
  | whileDo =>
    rw [Stmt.jumpsLast, Bool.and_eq_true] at h
    rw [List.mem_singleton.mp hbody]
    exact h.1
  | forIn =>
    rw [Stmt.jumpsLast, Bool.and_eq_true] at h
    rw [List.mem_singleton.mp hbody]
    exact h.1
  | classDef =>
    rw [Stmt.jumpsLast] at h
    rw [List.mem_singleton.mp hbody]
    exact h

private theorem Opening.jumpsLast {s m : State} {pre : List Act} {hs : List Head} {slots : List Slot}
    {regions : List Region} {args : List ValueId} (h : Opening s pre hs slots regions args m) :
    jumpsLastRegions regions = true ∧ ∀ x ∈ hs, x.isJump = false := by
  cases h with
  | inline flat => exact ⟨rfl, flat.not_jump⟩
  | @loop _ hs x _ _ _ _ flat leave written =>
    refine ⟨?_, by simp⟩
    have hline : ∀ y ∈ hs ++ [yieldHead x], y.isJump = false := by
      intro y hy
      rcases List.mem_append.mp hy with hy | hy
      · exact flat.not_jump y hy
      · rw [List.mem_singleton.mp hy]
        rfl
    rw [yieldRegion, jumpsLastRegions_single, jumpsLastAll_leaves hline]
    rfl

mutual

/-- If no statement stands behind a jump, then operators do so only where a value is stranded. -/
theorem Grows.jumpsLast_eq : ∀ {Z : List String} {s s' : State} {stmts : List Stmt}
    {ops : List Operator}, Grows Z s stmts s' ops → s.Placed → Stmt.jumpsLastAll stmts = true →
    ∀ {final : String → Phase}, (∀ a, a ∈ Z ↔ final a = .moved) → (∀ a, s'.home a = .memory → a ∈ Z) →
    jumpsLastAll ops = Stmt.unstrandedAll final s.inFunction s.phases stmts
  | _, _, _, _, _, .nil, _, _, _, _, _ => rfl
  | Z, s, s', _, _, @Grows.simple _ _ t _ st own stmts hs ops one gains rest, placed, tidy, final,
      complete, moved => by
    obtain ⟨s₀, reads, hs', args, m, writes, ls, rfl, -, flat, -⟩ := one.gained placed gains
    have hnext := one.extension.emitted (.ofHead own)
    have hone : Grows Z s [st] _ _ := .simple one gains .nil
    have hphases := hone.phases_between rest placed moved
    rw [Stmt.jumpsLastAll, Bool.and_eq_true, Bool.and_eq_true] at tidy
    have hrest := rest.jumpsLast_eq (placed.extension hnext) tidy.2 complete moved
    rw [State.inFunction_congr s hnext.sites, hphases] at hrest
    have hline : ∀ x ∈ hs' ++ ls.map Late.head, x.isJump = false := by
      intro x hx
      rcases List.mem_append.mp hx with hx | hx
      · exact flat.not_jump x hx
      · exact Late.not_jump ls x hx
    have hend : (!(leaf own).isJump || ops.isEmpty) = true := by
      rw [show (leaf own).isJump = own.isJump from rfl, one.isJump, rest.isEmpty]
      exact tidy.1.2
    rw [jumpsLastAll_step hline, hend, hrest, Stmt.unstrandedAll, one.unstranded]
    simp [leaf, Operator.jumpsLast, Operator.regions, jumpsLastRegions, Stmt.accessesAll, Stmt.actsAll]
  | Z, s, s', _, _, @Grows.compound _ _ t m u _ st own slots more bodies close pre hs regions others
      stmts ls ops opens opened inner retro rest, placed, tidy, final, complete, moved => by
    have hopen := opened.opening.extension
    have hnext := opened.emitted inner.lowers.extension (.ofHead own (slots ++ more))
    have hone : Grows Z s [st] _ _ := .compound opens opened inner retro .nil
    have hphases := hone.phases_between rest placed moved
    rw [Stmt.jumpsLastAll, Bool.and_eq_true, Bool.and_eq_true] at tidy
    have hrest := rest.jumpsLast_eq (placed.extension hnext) tidy.2 complete moved
    rw [State.inFunction_congr s hnext.sites, hphases] at hrest
    have hinner := inner.jumpsLast_eq ((placed.extension hopen).sameVars opened.start)
      (opens.jumpsLast tidy.1.1) complete (by
        intro a h
        apply moved a (rest.lowers.extension.memory a _)
        exact ((opened.finish u).home a).trans h)
    obtain ⟨hregions, hpre⟩ := opened.opening.jumpsLast
    have hline : ∀ x ∈ hs ++ ls.map Late.head, x.isJump = false := by
      intro x hx
      rcases List.mem_append.mp hx with hx | hx
      · exact hpre x hx
      · exact Late.not_jump ls x hx
    rw [jumpsLastAll_step hline, Operator.jumpsLast, Operator.regions, jumpsLastRegions_append,
      hregions, hinner, hrest, Stmt.unstrandedAll, opens.unstranded_eq,
      show Operator.isJump (.mk own (regions ++ others)) = own.isJump from rfl, opens.not_jump.1]
    simp [Stmt.accessesAll, Stmt.actsAll]
  | Z, s, s', _, _, @Grows.function _ _ t u v _ name params body stmts decorators returns span formals
      inside ops accepted bind inner leave rest, placed, tidy, final, complete, moved => by
    have binds := Lower.binds_of_bindParams bind
    have left := State.left_of_leave? leave
    have hnext := binds.emitted inner.lowers.extension left
      (.ofHead (functionHead name decorators formals (annotatedTy? returns))
        [⟨s.blocks.length, some ⟨entryLabel, formals⟩⟩])
    have hone : Grows Z s [.mk (.functionDef name params body decorators returns) span] _ _ :=
      .function accepted bind inner leave .nil
    have hphases := hone.phases_between rest placed moved
    rw [Stmt.jumpsLastAll, Bool.and_eq_true, Bool.and_eq_true] at tidy
    have hrest := rest.jumpsLast_eq (placed.extension hnext) tidy.2 complete moved
    rw [State.inFunction_congr s hnext.sites, hphases] at hrest
    -- a function is a scope of its own, so it is judged by what is in memory at its own end
    have hin := binds.inFunction
    have hstart : t.phases = Phase.atEntry params.names := binds.phases_entry
    have hbody : Stmt.jumpsLastAll body = true := by
      have hst := tidy.1.1
      rwa [Stmt.jumpsLast] at hst
    have hinner := inner.jumpsLast_eq (binds.placed placed) hbody
      (inner.complete (binds.placed placed)) fun a h => (Scope.home_eq_memory _ _).mp h
    rw [hin, hstart] at hinner
    have hjump : Operator.isJump (.mk (functionHead name decorators formals (annotatedTy? returns))
        [.single (some ⟨entryLabel, formals⟩) inside]) = false := functionHead_not_jump _ _ _ _
    rw [jumpsLastAll_cons, Operator.jumpsLast, Operator.regions, jumpsLastRegions_single, hinner, hrest,
      hjump, Stmt.unstrandedAll, Stmt.unstranded]
    simp [jumpsLastRegions, Stmt.accessesAll, Stmt.actsAll]

theorem GrowsBodies.jumpsLast_eq : ∀ {Z : List String} {s s' : State} {bodies : List (List Stmt)}
    {slots : List Slot} {regions : List Region}, GrowsBodies Z s bodies slots s' regions → s.Placed →
    (∀ body ∈ bodies, Stmt.jumpsLastAll body = true) →
    ∀ {final : String → Phase}, (∀ a, a ∈ Z ↔ final a = .moved) → (∀ a, s'.home a = .memory → a ∈ Z) →
    jumpsLastRegions regions = Stmt.unstrandedBodies final s.inFunction s.phases bodies
  | _, _, _, _, _, _, .nil, _, _, _, _, _ => rfl
  | Z, s, s', _, _, _, @GrowsBodies.cons _ _ t u _ stmts bodies slots ops ls regions inner leave late
      rest, placed, tidy, final, complete, moved => by
    have left := State.left_of_leave? leave
    have hregion := inner.lowers.extension.region left
    obtain ⟨hlater, hphases⟩ := inner.phases_region left rest placed moved
    have hinner : jumpsLastAll ops = Stmt.unstrandedAll final s.inFunction s.phases stmts :=
      inner.jumpsLast_eq placed.enter (tidy stmts List.mem_cons_self) complete hlater
    have hrest := rest.jumpsLast_eq (placed.extension (hregion.weaken _))
      (fun body hbody => tidy body (List.mem_cons_of_mem _ hbody)) complete moved
    rw [State.inFunction_congr s hregion.sites, hphases] at hrest
    have hlate := inner.stranded_eq placed complete hlater late
    rw [jumpsLastRegions_single, jumpsLastAll_append, jumpsLastAll_leaves (Late.not_jump ls), hinner,
      hrest, Stmt.unstrandedBodies, ← hlate]
    simp [Bool.and_comm]

end

/-- Where no statement stands behind a jump, no operator does so either, exactly if no block that ends in
a jump holds the only value of a variable that moves to memory later in its scope. -/
theorem jumps_last_iff_unstranded {stmts : List Stmt} {op : Operator}
    (accepted : (SourceUnit.module stmts).lower = .ok op) (tidy : Stmt.jumpsLastAll stmts = true) :
    op.jumpsLast = true ↔ Stmt.nothingStranded stmts = true := by
  obtain ⟨t, ops, grows, rfl⟩ := SourceUnit.grows_of_lower accepted
  have hstart : State.initial.phases = Phase.atEntry [] := rfl
  have hin : State.initial.inFunction = false := rfl
  have hcomplete := grows.complete State.initial_placed
  have h := grows.jumpsLast_eq State.initial_placed tidy hcomplete fun a h =>
    (Scope.home_eq_memory _ _).mp h
  rw [hstart, hin] at h
  rw [Operator.jumpsLast, Operator.regions, jumpsLastRegions_single, h, Stmt.nothingStranded]
  simp [jumpsLastRegions]

/-- A branch whose arms both return, one of them with a variable of its own. -/
def earlyReturnProgram : List Stmt :=
  [.function "f" [⟨"c", none⟩] none
    [.assign "a" (.ofName "c"), .assign "a" (.ofInt 1),
      .ifElse (.ofName "c") [.assign "b" (.ofName "a"), .ret (some (.ofName "b"))]
        [.ret (some (.ofName "a"))]]]

theorem earlyReturnProgram_jumps_last :
    ∃ op, (SourceUnit.module earlyReturnProgram).lower = .ok op ∧ op.jumpsLast = true := by
  obtain ⟨op, accepted, -⟩ := SourceUnit.exists_of_view
    (show (SourceUnit.module earlyReturnProgram).lower.toOption.map (fun _ => ()) = some () by
      decide +kernel)
  exact ⟨op, accepted, (jumps_last_iff_unstranded accepted (by decide)).mpr (by decide)⟩

/-- A loop that breaks after binding a variable, which a branch after the loop binds again. -/
def breakThenRebindProgram : List Stmt :=
  [.function "f" [⟨"c", none⟩, ⟨"d", none⟩] none
    [.whileDo (.ofName "c") [.assign "a" (.ofInt 1), .ofForm .breakLoop],
      .ifElse (.ofName "d") [.assign "a" (.ofInt 2)] [], .ret (some (.ofName "a"))]]

/-- The store of the first value stands behind the break, although no statement does. -/
theorem breakThenRebindProgram_strands :
    Stmt.jumpsLastAll breakThenRebindProgram = true ∧
      ∃ op, (SourceUnit.module breakThenRebindProgram).lower = .ok op ∧ op.jumpsLast = false := by
  refine ⟨by decide, ?_⟩
  exact SourceUnit.exists_of_view (show (SourceUnit.module breakThenRebindProgram).lower.toOption.map
    jumpsLast = some false by decide +kernel)

end RegionIR
