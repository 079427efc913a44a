import RegionIR.Proofs.Phases
/-!
# Reads inside loops

Lowering goes through a loop once, so what it makes of a read depends on the accesses before it in the
program text and not on those that come before it in a later iteration. A variable that is bound before
a loop is loaded by exactly those reads of the loop that follow its move to memory; the reads before
that, in the test of the loop too, take the value from before the loop.

To say so about the operators, every access is marked with what has become of it, and `Renders` says
that the operators of a block spell the marked accesses.
-/
namespace RegionIR

open Operator

/-- An access to a variable and what has become of it. -/
inductive Mark where
  /-- A read that is loaded. -/
  | load (name : String)
  /-- A read that takes a value as it is. -/
  | value (name : String) (v : ValueId)
  /-- An assignment that defines a value. -/
  | define (name : String) (v : ValueId)
  /-- An assignment that is stored. -/
  | store (name : String)
  /-- A write that goes to memory in any case. -/
  | touch (name : String)

namespace Mark

def access : Mark → Access
  | load name => .read name
  | value name _ => .read name
  | define name _ => .bind name
  | store name => .bind name
  | touch name => .touch name

end Mark

/-- A straight line that starts with nothing at hand. `pool` holds the values that it leaves for others:
each one comes from a read or an operator of the line, and none is left out that no operator takes. -/
inductive Line : List Mark → List Head → List ValueId → Prop
  | start : Line [] [] []
  | load {ms : List Mark} {hs : List Head} {pool : List ValueId} {name : String} {v : ValueId} {ty : Ty}
      (line : Line ms hs pool) : Line (ms ++ [.load name]) (hs ++ [loadHead name v ty]) (v :: pool)
  | value {ms : List Mark} {hs : List Head} {pool : List ValueId} {name : String} {v : ValueId}
      (line : Line ms hs pool) : Line (ms ++ [.value name v]) hs (v :: pool)
  | op {ms : List Mark} {hs : List Head} {pool : List ValueId} {h : Head} {v : ValueId} {ty : Ty}
      (line : Line ms hs pool) (computes : h.Computes) (known : ∀ w ∈ h.args, w ∈ pool) :
      Line ms (hs ++ [h.withResult v ty]) (v :: pool)
  | drop {ms : List Mark} {hs : List Head} {pool left : List ValueId} (line : Line ms hs pool)
      (known : ∀ v ∈ left, v ∈ pool) (used : ∀ v ∈ pool, v ∈ left ∨ ∃ h ∈ hs, v ∈ h.args) :
      Line ms hs left

/-- The operator that ends a simple statement with the operands `args`, and the write it stands for. -/
inductive Ends (args : List ValueId) : List Mark → Head → Prop
  | plain {own : Head} (quiet : own.Quiet) (takes : own.args = args) : Ends args [] own
  | define {own : Head} {name : String} {v : ValueId} (opcode : own.name = "assign" ∨ own.name = "cast")
      (results : own.results = [v]) (takes : own.args = args) : Ends args [.define name v] own
  | store {name : String} {v : ValueId} {ty : Ty} (takes : args = [v]) :
      Ends args [.store name] (storeHead name v ty)
  | touch {own : Head} {name : String} (quiet : own.Quiet) (takes : own.args = args) :
      Ends args [.touch name] own

mutual

/-- The operators of a block spell the marked accesses of its statements. Stores that promotion has put
in stand before the operator of a statement and at the end of a region. -/
inductive Renders : List Mark → List Operator → Prop
  | nil : Renders [] []
  | simple {reads writes ms : List Mark} {hs : List Head} {args : List ValueId} {own : Head}
      {ops : List Operator} (line : Line reads hs args.reverse) (late : List Late)
      (ends : Ends args writes own) (rest : Renders ms ops) :
      Renders (reads ++ writes ++ ms) ((hs ++ late.map Late.head).map leaf ++ leaf own :: ops)
  /-- A branch or a class: its operands are computed in the block itself. -/
  | branch {reads inner ms : List Mark} {hs : List Head} {own : Head} {regions : List Region}
      {ops : List Operator} (line : Line reads hs own.args.reverse) (late : List Late)
      (quiet : own.Quiet) (bodies : RendersBodies inner regions) (rest : Renders ms ops) :
      Renders (reads ++ inner ++ ms) ((hs ++ late.map Late.head).map leaf ++ .mk own regions :: ops)
  /-- A loop: its test or the sequence it goes through is computed in a region of its own. -/
  | loop {reads inner ms : List Mark} {hs : List Head} {x : Operand} {own : Head}
      {regions : List Region} {ops : List Operator} (line : Line reads hs [x.1])
      (target : Option String) (late : List Late) (quiet : own.Quiet)
      (bodies : RendersBodies inner regions) (rest : Renders ms ops) :
      Renders (reads ++ target.toList.map .touch ++ inner ++ ms)
        ((late.map Late.head).map leaf ++ .mk own (yieldRegion hs x :: regions) :: ops)
  /-- A function has variables of its own. -/
  | function {ms : List Mark} {own : Head} {regions : List Region} {ops : List Operator}
      (opcode : own.dialect = .builtin) (rest : Renders ms ops) : Renders ms (.mk own regions :: ops)

inductive RendersBodies : List Mark → List Region → Prop
  | nil : RendersBodies [] []
  | cons {ms inner : List Mark} {ops : List Operator} {regions : List Region} (body : Renders ms ops)
      (late : List Late) (rest : RendersBodies inner regions) :
      RendersBodies (ms ++ inner) (.single none (ops ++ (late.map Late.head).map leaf) :: regions)

end

/-- Where the value of a variable is found. -/
inductive Seat where
  | unbound
  | value (v : ValueId)
  | memory

def Home.seat : Home → Seat
  | .undefined => .unbound
  | .pending _ v => .value v
  | .memory => .memory

def State.seats (s : State) (a : String) : Seat := (s.home a).seat

def Seat.phase : Seat → Phase
  | unbound => .unbound
  | value _ => .bound
  | memory => .moved

namespace Mark

def step (seats : String → Seat) (m : Mark) (a : String) : Seat :=
  match m with
  | load _ => seats a
  | value _ _ => seats a
  | define name v => if a = name then .value v else seats a
  | store name => if a = name then .memory else seats a
  | touch name => if a = name then .memory else seats a

def run (seats : String → Seat) (ms : List Mark) : String → Seat := ms.foldl step seats

/-- The mark is the one that the seats call for. -/
def Fits (seats : String → Seat) : Mark → Prop
  | load name => seats name = .memory
  | value name v => seats name = .value v ∨ seats name = .unbound ∧ v = .named name
  | define name _ => seats name = .unbound
  | store name => seats name ≠ .unbound
  | touch _ => True

/-- Every mark fits the seats that the ones before it leave. -/
def Obey (seats : String → Seat) : List Mark → Prop
  | [] => True
  | m :: ms => m.Fits seats ∧ Obey (m.step seats) ms

private theorem run_append (seats : String → Seat) (ms ns : List Mark) :
    run seats (ms ++ ns) = run (run seats ms) ns := List.foldl_append

private theorem obey_append {seats : String → Seat} {ms ns : List Mark} :
    Obey seats (ms ++ ns) ↔ Obey seats ms ∧ Obey (run seats ms) ns := by
  induction ms generalizing seats with
  | nil => simp [Obey, run]
  | cons m ms ih =>
    rw [List.cons_append, Obey, Obey, ih, and_assoc]
    rfl

private theorem phase_run {seats : String → Seat} {ms : List Mark} (h : Obey seats ms) (a : String) :
    (run seats ms a).phase = Phase.after (fun x => (seats x).phase) (ms.map access) a := by
  induction ms generalizing seats with
  | nil => rfl
  | cons m ms ih =>
    have hstep : (m.step seats a).phase = Phase.step a (seats a).phase m.access := by
      obtain ⟨hfits, -⟩ := h
      cases m with
      | load name => rfl
      | value name v => rfl
      | define name v =>
        by_cases ha : a = name
        · subst ha
          simp [step, access, Phase.step, show seats a = .unbound from hfits, Seat.phase]
        · simp [step, access, Phase.step, ha, Ne.symm ha]
      | store name =>
        by_cases ha : a = name
        · subst ha
          cases hseat : seats a with
          | unbound => exact absurd hseat hfits
          | value v => simp [step, access, Phase.step, Seat.phase]
          | memory => simp [step, access, Phase.step, Seat.phase]
        · simp [step, access, Phase.step, ha, Ne.symm ha]
      | touch name =>
        by_cases ha : a = name
        · simp [step, access, Phase.step, ha, Seat.phase]
        · simp [step, access, Phase.step, ha, Ne.symm ha]
    rw [List.map_cons, Phase.after, List.foldl_cons, ← hstep]
    exact ih h.2

private theorem value_of_run {seats : String → Seat} {ms : List Mark} {a : String} {v : ValueId}
    (h : run seats ms a = .value v) : seats a = .value v ∨ .define a v ∈ ms := by
  induction ms generalizing seats with
  | nil => exact .inl h
  | cons m ms ih =>
    rcases ih h with hstep | hmem
    · cases m with
      | load name => exact .inl hstep
      | value name w => exact .inl hstep
      | define name w =>
        by_cases ha : a = name
        · subst ha
          rw [step, if_pos rfl] at hstep
          cases hstep
          exact .inr List.mem_cons_self
        · rw [step, if_neg ha] at hstep
          exact .inl hstep
      | store name =>
        by_cases ha : a = name
        · rw [step, if_pos ha] at hstep
          cases hstep
        · rw [step, if_neg ha] at hstep
          exact .inl hstep
      | touch name =>
        by_cases ha : a = name
        · rw [step, if_pos ha] at hstep
          cases hstep
        · rw [step, if_neg ha] at hstep
          exact .inl hstep
    · exact .inr (List.mem_cons_of_mem _ hmem)

end Mark

/-- The marks are those of a pass from `s` to `t`. -/
structure Tells (s : State) (ms : List Mark) (t : State) : Prop where
  obey : Mark.Obey s.seats ms
  seats : t.seats = Mark.run s.seats ms

namespace Tells

variable {s t u : State} {ms ns : List Mark}

theorem trans (h : Tells s ms t) (h' : Tells t ns u) : Tells s (ms ++ ns) u where
  obey := Mark.obey_append.mpr ⟨h.obey, by rw [← h.seats]; exact h'.obey⟩
  seats := by rw [h'.seats, h.seats, Mark.run_append]

private theorem of_same (h : ∀ a, t.home a = s.home a) : Tells s [] t where
  obey := trivial
  seats := by
    funext a
    exact congrArg Home.seat (h a)

private theorem start (h : Tells t ms u) (same : ∀ a, t.home a = s.home a) : Tells s ms u :=
  (of_same same).trans h

private theorem finish (h : Tells s ms t) (same : ∀ a, u.home a = t.home a) : Tells s ms u := by
  have := h.trans (of_same same)
  rwa [List.append_nil] at this

private theorem write {name : String} {m : Mark} (h : Write s name none t) (fits : m.Fits s.seats)
    (step : ∀ a, m.step s.seats a = if a = name then .memory else s.seats a) : Tells s [m] t where
  obey := ⟨fits, trivial⟩
  seats := by
    funext a
    rw [State.seats, h.moves.1 a, show Mark.run s.seats [m] a = m.step s.seats a from rfl, step a]
    split <;> rfl

end Tells

private def State.reading (s : State) (name : String) : Mark :=
  match s.home name with
  | .memory => .load name
  | home => .value name (home.valueOf name)

private theorem State.reading_access (s : State) (names : List String) :
    (names.map s.reading).map Mark.access = names.map Access.read := by
  rw [List.map_map]
  apply List.map_congr_left
  intro name _
  rw [Function.comp, State.reading]
  cases s.home name <;> rfl

private theorem State.tells_reading (s : State) (names : List String) :
    Tells s (names.map s.reading) s := by
  have hone : ∀ name, Tells s [s.reading name] s := by
    intro name
    constructor
    · refine ⟨?_, trivial⟩
      rw [State.reading]
      cases h : s.home name <;> simp [Mark.Fits, State.seats, h, Home.seat, Home.valueOf]
    · funext a
      show _ = Mark.step s.seats (s.reading name) a
      rw [State.reading]
      cases s.home name <;> rfl
  induction names with
  | nil => exact ⟨trivial, rfl⟩
  | cons name names ih => exact (hone name).trans ih

private theorem Flat.line {s t : State} {reads : List String} {hs : List Head} {pool : List ValueId}
    (flat : Flat s reads hs pool t) : Line (reads.map s.reading) hs pool := by
  induction flat with
  | start => exact .start
  | @load _ _ _ t name flat home ih =>
    have hmark : s.reading name = .load name := by
      rw [State.reading, ← flat.appended.home, home]
    rw [List.map_append, List.map_singleton, hmark]
    exact .load ih
  | @value _ _ _ t name flat home ih =>
    have hmark : s.reading name = .value name ((t.home name).valueOf name) := by
      rw [flat.appended.home] at home ⊢
      rw [State.reading]
      cases h : s.home name with
      | undefined => rfl
      | pending b v => rfl
      | memory => exact absurd h home
    rw [List.map_append, List.map_singleton, hmark]
    exact .value ih
  | op flat computes known ih => exact .op ih computes known
  | drop flat known used ih => exact .drop ih known used

private theorem Settles.ends {m t : State} {args : List ValueId} {writes : List Act} {own : Head}
    (h : Settles m args writes own t) : ∃ ms, Ends args ms own ∧
      ms.map Mark.access = Act.accessesAll writes ∧ Tells m ms t := by
  cases h with
  | plain quiet takes => exact ⟨[], .plain quiet takes, rfl, .of_same fun _ => rfl⟩
  | define dialect opcode results takes write =>
    rename_i name value
    refine ⟨[.define name value], .define opcode results takes, rfl, ?_, ?_⟩
    · cases write with
      | define _ before =>
        refine ⟨?_, trivial⟩
        rw [Mark.Fits, State.seats, before]
        rfl
    · funext a
      cases write with
      | define _ _ _ _ home =>
        rw [State.seats, home a]
        show _ = Mark.step m.seats (.define name value) a
        rw [Mark.step]
        split <;> rfl
  | store takes known write =>
    rename_i name x ty
    refine ⟨[.store name], .store takes, rfl, .write write ?_ fun _ => rfl⟩
    intro hseat
    apply known
    rw [State.seats] at hseat
    cases hhome : m.home name <;> simp_all [Home.seat]
  | through quiet takes write =>
    rename_i name
    exact ⟨[.touch name], .touch quiet takes, rfl, .write write trivial fun _ => rfl⟩

private theorem Opening.renders {s m : State} {pre : List Act} {hs : List Head} {slots : List Slot}
    {regions others : List Region} {args : List ValueId} {own : Head} {inner ms : List Mark}
    {ops : List Operator} (h : Opening s pre hs slots regions args m) (takes : own.args = args)
    (late : List Late) (quiet : own.Quiet) (bodies : RendersBodies inner others) (rest : Renders ms ops) :
    ∃ ns, Renders (ns ++ inner ++ ms)
        ((hs ++ late.map Late.head).map leaf ++ .mk own (regions ++ others) :: ops) ∧
      ns.map Mark.access = Act.accessesAll pre ∧ Tells s ns m := by
  cases h with
  | @inline reads _ _ _ flat =>
    subst takes
    refine ⟨reads.map s.reading, .branch flat.line late quiet bodies rest, ?_, ?_⟩
    · rw [State.reading_access, Act.accessesAll_reads]
    · exact (s.tells_reading reads).finish flat.appended.home
  | @loop reads hs x u v _ writes flat leave written =>
    obtain ⟨-, -, hhome⟩ := flat.yields leave
    have hline : Tells s (reads.map s.enter.reading) s.enter :=
      (s.enter.tells_reading reads).start fun _ => rfl
    have htest : Tells s (reads.map s.enter.reading) v := hline.finish hhome
    have haccess : (reads.map s.enter.reading).map Mark.access =
        Act.accessesAll [.nest (reads.map .read)] := by
      rw [State.reading_access, Act.accessesAll, Act.accesses, Act.accessesAll_reads]
      exact (List.append_nil _).symm
    obtain ⟨rfl, rfl⟩ | ⟨name, rfl, write⟩ := written
    · refine ⟨reads.map s.enter.reading, ?_, haccess, htest⟩
      have hloop : Renders _ (_ ++ .mk own _ :: ops) := .loop flat.line none late quiet bodies rest
      simpa using hloop
    · refine ⟨reads.map s.enter.reading ++ [.touch name], ?_, ?_, ?_⟩
      · have hloop : Renders _ (_ ++ .mk own _ :: ops) := .loop flat.line (some name) late quiet bodies rest
        simpa using hloop
      · rw [List.map_append, haccess]
        simp [Act.accessesAll, Act.accesses, Mark.access]
      · exact htest.trans (.write write trivial fun _ => rfl)

mutual

/-- The operators that statements grow spell the accesses of the statements. -/
theorem Grows.renders : ∀ {Z : List String} {s s' : State} {stmts : List Stmt} {ops : List Operator},
    Grows Z s stmts s' ops → s.Placed → ∃ ms, Renders ms ops ∧
      ms.map Mark.access = Stmt.accessesAll s.inFunction stmts ∧ Tells s ms s'
  | _, _, _, _, _, .nil, _ => ⟨[], .nil, rfl, .of_same fun _ => rfl⟩
  | _, s, s', _, _, @Grows.simple _ _ t _ st own stmts hs ops one gains rest, placed => by
    obtain ⟨s₀, reads, hs', args, m, writes, ls, rfl, same, flat, settles, acts, -⟩ :=
      one.gained placed gains
    have hnext := one.extension.emitted (.ofHead own)
    obtain ⟨ms, hrenders, haccess, htells⟩ := rest.renders (placed.extension hnext)
    obtain ⟨ws, hends, hwrites, hsettles⟩ := settles.ends
    refine ⟨reads.map s₀.reading ++ ws ++ ms, .simple flat.line ls hends hrenders, ?_, ?_⟩
    · rw [List.map_append, List.map_append, State.reading_access, hwrites, haccess,
        State.inFunction_congr s hnext.sites, Stmt.accessesAll, Stmt.accessesAll, Stmt.actsAll, acts,
        Act.accessesAll_append, Act.accessesAll_append, Act.accessesAll_reads]
    · have hline : Tells s (reads.map s₀.reading) m :=
        ((s₀.tells_reading reads).start same.home).finish flat.appended.home
      exact (hline.trans hsettles).trans (htells.start fun _ => rfl)
  | _, s, s', _, _, @Grows.compound _ _ t m u _ st own slots more bodies close pre hs regions others stmts
      ls ops opens opened inner retro rest, placed => by
    have hopen := opened.opening.extension
    have hnext := opened.emitted inner.lowers.extension (.ofHead own (slots ++ more))
    obtain ⟨ms, hrenders, haccess, htells⟩ := rest.renders (placed.extension hnext)
    obtain ⟨ns, hinner, hnest, hbody⟩ := inner.renders ((placed.extension hopen).sameVars opened.start)
    obtain ⟨ps, hall, hpre, hstart⟩ := opened.opening.renders rfl ls opened.quiet hinner hrenders
    refine ⟨ps ++ ns ++ ms, hall, ?_, ?_⟩
    · rw [List.map_append, List.map_append, hpre, hnest, haccess, State.inFunction_congr s hnext.sites,
        Stmt.accessesAll, Stmt.accessesAll, Stmt.actsAll, opened.acts hopen.sites,
        Act.accessesAll_append, Act.accessesAll_append]
    · have hmiddle : Tells m ns (close u) :=
        (hbody.start opened.start.home).finish (opened.finish u).home
      exact (hstart.trans hmiddle).trans (htells.start fun _ => rfl)
  | _, s, s', _, _, @Grows.function _ _ t u v _ name params body stmts decorators returns span formals
      inside ops accepted bind inner leave rest, placed => by
    have binds := Lower.binds_of_bindParams bind
    have left := State.left_of_leave? leave
    have houter := binds.home_popFunction inner.lowers.extension.toFrame left
    have hnext := binds.emitted inner.lowers.extension left
      (.ofHead (functionHead name decorators formals (annotatedTy? returns))
        [⟨s.blocks.length, some ⟨entryLabel, formals⟩⟩])
    obtain ⟨ms, hrenders, haccess, htells⟩ := rest.renders (placed.extension hnext)
    refine ⟨ms, .function (functionHead_opcode _ _ _ _).1 hrenders, ?_, ?_⟩
    · rw [haccess, State.inFunction_congr s hnext.sites, Stmt.accessesAll, Stmt.accessesAll,
        Stmt.actsAll, Stmt.acts, Act.accessesAll_append, Act.accessesAll, Act.accesses, Act.accessesAll]
      rfl
    · exact htells.start houter

theorem GrowsBodies.renders : ∀ {Z : List String} {s s' : State} {bodies : List (List Stmt)}
    {slots : List Slot} {regions : List Region}, GrowsBodies Z s bodies slots s' regions → s.Placed →
    ∃ ms, RendersBodies ms regions ∧ ms.map Mark.access =
        Act.accessesAll (bodies.map fun body => .nest (Stmt.actsAll s.inFunction body)) ∧ Tells s ms s'
  | _, _, _, _, _, _, .nil, _ => ⟨[], .nil, rfl, .of_same fun _ => rfl⟩
  | _, s, s', _, _, _, @GrowsBodies.cons _ _ t u _ stmts bodies slots ops ls regions inner leave late
      rest, placed => by
    have left := State.left_of_leave? leave
    have hregion := inner.lowers.extension.region left
    obtain ⟨ns, hinner, hnest, hbody⟩ := inner.renders placed.enter
    obtain ⟨ms, hrest, haccess, htells⟩ := rest.renders (placed.extension (hregion.weaken _))
    refine ⟨ns ++ ms, .cons hinner ls hrest, ?_, ?_⟩
    · rw [List.map_append, hnest, haccess, State.inFunction_congr s hregion.sites, List.map_cons,
        Act.accessesAll, Act.accesses]
      rfl
    · have hfirst : Tells s ns t := hbody.start fun _ => rfl
      exact (hfirst.finish left.home).trans htells

end

/-- A loop, by the accesses of its scope: those before it, and those that it repeats. The sequence that a
loop goes through is computed once, before it; its test and its target belong to what is repeated. -/
structure Loop where
  before : List Access
  repeated : List Access

namespace Stmt

mutual

/-- The loops in a statement, given the accesses of its scope before it. -/
def loops (inFunction : Bool) (before : List Access) : Stmt → List Loop
  | mk form _ =>
    match form with
    | .classDef _ _ _ body _ => loopsAll false before body
    | .forIn target iter body _ =>
      let before := before ++ iter.reads.map .read
      let target := target.name?.toList.map .touch
      ⟨before, target ++ accessesAll inFunction body⟩ :: loopsAll inFunction (before ++ target) body
    | .whileDo test body _ =>
      let test := test.reads.map .read
      ⟨before, test ++ accessesAll inFunction body⟩ :: loopsAll inFunction (before ++ test) body
    | .ifElse test yes no =>
      let before := before ++ test.reads.map .read
      loopsAll inFunction before yes ++
        loopsAll inFunction (before ++ accessesAll inFunction yes) no
    | _ => []
termination_by structural s => s

def loopsAll (inFunction : Bool) (before : List Access) : List Stmt → List Loop
  | [] => []
  | s :: rest =>
    loops inFunction before s ++
      loopsAll inFunction (before ++ Act.accessesAll (acts inFunction s)) rest
termination_by structural ss => ss

end

/-- What a loop repeats stands in one piece in the accesses of its scope. -/
def Contains (accs : List Access) (l : Loop) : Prop := ∃ after, accs = l.before ++ l.repeated ++ after

theorem Contains.append {accs : List Access} {l : Loop} (h : Contains accs l) (more : List Access) :
    Contains (accs ++ more) l := by
  obtain ⟨after, rfl⟩ := h
  exact ⟨after ++ more, by simp⟩

mutual

theorem loops_contained (before : List Access) : (st : Stmt) → (inFunction : Bool) →
    ∀ l ∈ st.loops inFunction before, Contains (before ++ Act.accessesAll (st.acts inFunction)) l
  | .mk (.classDef _ _ _ body _) _, inFunction, l, hl => by
    rw [loops] at hl
    simpa [acts, Act.accessesAll, Act.accesses, accessesAll] using
      loopsAll_contained before body false l hl
  | .mk (.forIn target iter body _) _, inFunction, l, hl => by
    have haccs : Act.accessesAll (acts inFunction (.mk (.forIn target iter body ‹_›) ‹_›)) =
        iter.reads.map .read ++ (target.name?.toList.map .touch ++ accessesAll inFunction body) := by
      cases hname : target.name? <;>
        simp [acts, hname, Act.accessesAll, Act.accesses, Act.accessesAll_reads, accessesAll]
    rw [loops] at hl
    rw [haccs]
    rcases List.mem_cons.mp hl with rfl | hl
    · exact ⟨[], by simp⟩
    · have := loopsAll_contained _ body inFunction l hl
      simpa using this
  | .mk (.whileDo test body _) _, inFunction, l, hl => by
    have haccs : Act.accessesAll (acts inFunction (.mk (.whileDo test body ‹_›) ‹_›)) =
        test.reads.map .read ++ accessesAll inFunction body := by
      simp [acts, Act.accessesAll, Act.accesses, Act.accessesAll_reads, accessesAll]
    rw [loops] at hl
    rw [haccs]
    rcases List.mem_cons.mp hl with rfl | hl
    · exact ⟨[], by simp⟩
    · have := loopsAll_contained _ body inFunction l hl
      simpa using this
  | .mk (.ifElse test yes no) _, inFunction, l, hl => by
    have haccs : Act.accessesAll (acts inFunction (.mk (.ifElse test yes no) ‹_›)) =
        test.reads.map .read ++ (accessesAll inFunction yes ++ accessesAll inFunction no) := by
      cases no <;> simp [acts, Act.accessesAll, Act.accesses, Act.accessesAll_reads,
        Act.accessesAll_append, accessesAll, actsAll]
    rw [loops, List.mem_append] at hl
    rw [haccs]
    rcases hl with hl | hl
    · have := (loopsAll_contained _ yes inFunction l hl).append (accessesAll inFunction no)
      simpa using this
    · have := loopsAll_contained _ no inFunction l hl
      simpa using this
  | .mk (.functionDef _ _ _ _ _) _, _, l, hl => by simp [loops] at hl
  | .mk (.ret _) _, _, l, hl => by simp [loops] at hl
  | .mk (.assign _ _) _, _, l, hl => by simp [loops] at hl
  | .mk (.augAssign _ _ _) _, _, l, hl => by simp [loops] at hl
  | .mk (.annAssign _ _ _ _) _, _, l, hl => by simp [loops] at hl
  | .mk (.expr _) _, _, l, hl => by simp [loops] at hl
  | .mk .pass _, _, l, hl => by simp [loops] at hl
  | .mk .breakLoop _, _, l, hl => by simp [loops] at hl
  | .mk .continueLoop _, _, l, hl => by simp [loops] at hl
  | .mk (.bare _) _, _, l, hl => by simp [loops] at hl

theorem loopsAll_contained (before : List Access) : (stmts : List Stmt) → (inFunction : Bool) →
    ∀ l ∈ loopsAll inFunction before stmts, Contains (before ++ accessesAll inFunction stmts) l
  | [], _, l, hl => by simp [loopsAll] at hl
  | st :: rest, inFunction, l, hl => by
    rw [loopsAll, List.mem_append] at hl
    rw [accessesAll, actsAll, Act.accessesAll_append, ← List.append_assoc]
    rcases hl with hl | hl
    · exact (loops_contained before st inFunction l hl).append _
    · exact loopsAll_contained _ rest inFunction l hl

end

end Stmt

namespace Loop

/-- The variable is bound when the loop starts: it is a parameter or has been assigned. -/
def Binds (l : Loop) (params : List String) (a : String) : Prop := a ∈ params ∨ .bind a ∈ l.before

/-- The variable is in memory after the first accesses `early` of the loop: it was there when the loop
started, or the loop has written it. -/
def Moves (l : Loop) (params : List String) (early : List Access) (a : String) : Prop :=
  Phase.after (Phase.atEntry params) l.before a = .moved ∨ ∃ acc ∈ early, acc.writes a = true

end Loop

private theorem Phase.foldl_step_bound_iff (a : String) (accs : List Access) :
    accs.foldl (step a) .bound = .moved ↔ ∃ acc ∈ accs, acc.writes a = true := by
  rw [foldl_step_bound]
  by_cases h : accs.count (.bind a) = 0 ∧ accs.count (.touch a) = 0
  · rw [if_pos h]
    rw [List.count_eq_zero, List.count_eq_zero] at h
    refine ⟨fun h => Phase.noConfusion h, ?_⟩
    rintro ⟨acc, hacc, hw⟩
    rw [Access.writes, decide_eq_true_eq] at hw
    rcases hw with rfl | rfl
    · exact absurd hacc h.1
    · exact absurd hacc h.2
  · rw [if_neg h]
    refine ⟨fun _ => ?_, fun _ => rfl⟩
    rw [List.count_eq_zero, List.count_eq_zero, not_and_or, not_not, not_not] at h
    rcases h with h | h
    · exact ⟨_, h, by simp [Access.writes]⟩
    · exact ⟨_, h, by simp [Access.writes]⟩

/-- A variable that is bound before a loop has moved by some point of it as `Moves` says, and otherwise
is bound still. -/
theorem Loop.phase_iff {l : Loop} {params : List String} {a : String} (h : l.Binds params a)
    (early : List Access) :
    (Phase.after (Phase.atEntry params) (l.before ++ early) a = .moved ↔ l.Moves params early a) ∧
      Phase.after (Phase.atEntry params) (l.before ++ early) a ≠ .unbound := by
  have hstart : Phase.after (Phase.atEntry params) l.before a ≠ .unbound := by
    by_cases ha : a ∈ params
    · rw [Phase.after, Phase.atEntry, if_pos ha, Phase.foldl_step_bound]
      split <;> simp
    · have hbind : l.before.count (.bind a) ≠ 0 := by
        rw [Ne, List.count_eq_zero, not_not]
        exact h.resolve_left ha
      rw [Phase.after, Phase.atEntry, if_neg ha, Phase.foldl_step_unbound, if_neg fun h => hbind h.1]
      split <;> simp
  have hsplit : Phase.after (Phase.atEntry params) (l.before ++ early) a =
      early.foldl (Phase.step a) (Phase.after (Phase.atEntry params) l.before a) := List.foldl_append
  rw [hsplit, Loop.Moves]
  cases hphase : Phase.after (Phase.atEntry params) l.before a with
  | unbound => exact absurd hphase hstart
  | bound =>
    refine ⟨by simp [Phase.foldl_step_bound_iff], ?_⟩
    rw [Phase.foldl_step_bound]
    split <;> simp
  | moved => simp [Phase.foldl_step_moved]

namespace Operator

def entry : Operator → List Operator
  | mk _ (.mk (.mk _ items :: _) :: _) => items
  | _ => []

def formals : Operator → List ValueId
  | mk _ (.mk (.mk (some label) _ :: _) :: _) => label.params.map Prod.fst
  | _ => []

end Operator

private theorem Binds.value_of_param {entry : Nat} {s t : State} {names : List String}
    {values : List ValueId} (h : Binds entry s names values t) {x : String} (hx : x ∈ names) :
    ∃ v, (x, v) ∈ names.zip values ∧ t.home x = .pending entry v := by
  induction h with
  | nil => simp at hx
  | @cons s t u name value names values _ _ _ home rest ih =>
    by_cases hlater : x ∈ names
    · obtain ⟨v, hmem, hv⟩ := ih hlater
      exact ⟨v, List.mem_cons_of_mem _ hmem, hv⟩
    · have hsame := rest.home x
      rw [if_neg hlater, home x] at hsame
      have hname : x = name := (List.mem_cons.mp hx).resolve_right hlater
      rw [if_pos hname] at hsame
      subst hname
      exact ⟨value, List.mem_cons_self, hsame⟩

private theorem Mark.read_at {seats : String → Seat} {ms : List Mark} {pre post : List Access}
    {a : String} (obey : Obey seats ms) (haccess : ms.map access = pre ++ .read a :: post) :
    ∃ m, ms[pre.length]? = some m ∧ m.access = .read a ∧ m.Fits (run seats (ms.take pre.length)) ∧
      Obey seats (ms.take pre.length) ∧ (ms.take pre.length).map access = pre := by
  obtain ⟨first, others, rfl, hfirst, hothers⟩ := List.map_eq_append_iff.mp haccess
  obtain ⟨m, last, rfl, hm, -⟩ := List.map_eq_cons_iff.mp hothers
  have hlength : pre.length = first.length := by rw [← hfirst, List.length_map]
  have htake : (first ++ m :: last).take pre.length = first := by simp [hlength]
  obtain ⟨hobey, hfits, -⟩ := obey_append.mp obey
  rw [htake]
  exact ⟨m, by simp [hlength], hm, hfits, hobey, hfirst⟩

/-- What becomes of a read in a loop whose variable is bound when the loop starts. -/
theorem Loop.mark_of_read {seats : String → Seat} {ms : List Mark} {l : Loop} {params : List String}
    {a : String} {early late : List Access} (obey : Mark.Obey seats ms)
    (start : (fun x => (seats x).phase) = Phase.atEntry params)
    (contained : Stmt.Contains (ms.map Mark.access) l) (binds : l.Binds params a)
    (repeated : l.repeated = early ++ .read a :: late) :
    (l.Moves params early a → ms[l.before.length + early.length]? = some (.load a)) ∧
      (¬ l.Moves params early a → ∃ v, ms[l.before.length + early.length]? = some (.value a v) ∧
        (seats a = .value v ∨ .define a v ∈ ms.take l.before.length)) := by
  obtain ⟨after, hafter⟩ := contained
  have haccess : ms.map Mark.access = (l.before ++ early) ++ .read a :: (late ++ after) := by
    rw [hafter, repeated]
    simp
  obtain ⟨m, hm, hread, hfits, hobey, htake⟩ := Mark.read_at obey haccess
  obtain ⟨hmoves, hbound⟩ := l.phase_iff binds early
  have hphase := Mark.phase_run hobey a
  rw [htake, start] at hphase
  rw [← hphase] at hmoves hbound
  rw [List.length_append] at hm
  cases m with
  | define name v => cases hread
  | store name => cases hread
  | touch name => cases hread
  | load name =>
    cases hread
    rw [Mark.Fits] at hfits
    rw [hfits] at hmoves
    exact ⟨fun _ => hm, fun h => absurd (hmoves.mp rfl) h⟩
  | value name v =>
    cases hread
    have hseat : Mark.run seats (ms.take (l.before ++ early).length) a = .value v := by
      rcases hfits with hseat | ⟨hseat, -⟩
      · exact hseat
      · rw [hseat] at hbound
        exact absurd rfl hbound
    rw [hseat] at hmoves
    refine ⟨fun h => Phase.noConfusion (hmoves.mpr h), fun h => ⟨v, hm, ?_⟩⟩
    rcases Mark.value_of_run hseat with hstart | hdefine
    · exact .inl hstart
    -- a definition after the start of the loop would be one of the early writes
    obtain ⟨first, second, hsplit, hfirst, hsecond⟩ := List.map_eq_append_iff.mp htake
    have hlength : first.length = l.before.length := by rw [← hfirst, List.length_map]
    rw [hsplit, List.mem_append] at hdefine
    rcases hdefine with hdefine | hdefine
    · right
      have hstem : ms.take l.before.length = first := by
        have htake' := congrArg (List.take l.before.length) hsplit
        rw [List.take_take, List.take_append_of_le_length hlength.ge, ← hlength, List.take_length,
          List.length_append, Nat.min_eq_left (by omega)] at htake'
        rw [← hlength]
        exact htake'
      rwa [hstem]
    · exfalso
      apply h
      right
      refine ⟨.bind a, ?_, by simp [Access.writes]⟩
      rw [← hsecond]
      exact List.mem_map_of_mem hdefine

def Function.loops (f : Function) : List Loop := Stmt.loopsAll true [] f.body

/-- The marks say what has become of the accesses of a function in its operator, and of the reads of its
loops in particular. A read stands for the place of its mark. -/
structure LoopReads (f : Function) (o : Operator) (ms : List Mark) : Prop where
  renders : Renders ms o.entry
  accesses : ms.map Mark.access = Stmt.accessesAll true f.body
  /-- After the move to memory a read in the loop is loaded. -/
  loaded : ∀ l ∈ f.loops, ∀ a, l.Binds f.params.names a →
    ∀ early late, l.repeated = early ++ .read a :: late → l.Moves f.params.names early a →
      ms[l.before.length + early.length]? = some (.load a)
  /-- Before it, the read takes the value that was bound before the loop. -/
  kept : ∀ l ∈ f.loops, ∀ a, l.Binds f.params.names a →
    ∀ early late, l.repeated = early ++ .read a :: late → ¬ l.Moves f.params.names early a →
      ∃ v, ms[l.before.length + early.length]? = some (.value a v) ∧
        ((a, v) ∈ f.params.names.zip o.formals ∨ .define a v ∈ ms.take l.before.length)

private theorem Emitted.loopReads {f : Function} {o : Operator} (h : Emitted f o) :
    ∃ ms, LoopReads f o ms := by
  cases h with
  | @intro s t u ty formals inside own placed bind inner =>
    have binds := Lower.binds_of_bindParams bind
    have hin : t.inFunction = true := by
      simp [State.inFunction, State.site, binds.entry.2.2.2.1]
    obtain ⟨ms, hrenders, haccess, htells⟩ := inner.renders (binds.placed placed)
    rw [hin] at haccess
    have hstart : (fun x => (t.seats x).phase) = Phase.atEntry f.params.names := by
      rw [← show t.phases = Phase.atEntry f.params.names from binds.phases_entry]
      funext x
      rw [State.seats, State.phases]
      cases t.home x <;> rfl
    have hloop : ∀ l ∈ f.loops, Stmt.Contains (ms.map Mark.access) l := by
      intro l hl
      rw [haccess]
      exact Stmt.loopsAll_contained [] f.body true l hl
    refine ⟨ms, hrenders, haccess, ?_, ?_⟩
    · intro l hl a ha early late hrepeated
      exact (Loop.mark_of_read htells.obey hstart (hloop l hl) ha hrepeated).1
    · intro l hl a ha early late hrepeated hmoves
      obtain ⟨v, hv, horigin⟩ :=
        (Loop.mark_of_read htells.obey hstart (hloop l hl) ha hrepeated).2 hmoves
      refine ⟨v, hv, horigin.imp_left ?_⟩
      intro hseat
      by_cases hparam : a ∈ f.params.names
      · obtain ⟨w, hmem, hw⟩ := binds.value_of_param hparam
        rw [State.seats, hw] at hseat
        cases hseat
        exact hmem
      · have hhome : t.home a = .undefined := by
          have hentry := binds.entry_home a
          rwa [if_neg (show a ∉ f.params.plain.map Param.name from hparam)] at hentry
        rw [State.seats, hhome] at hseat
        cases hseat

/-- In every function of an accepted module, a variable that is bound before a loop is loaded by exactly
those reads of the loop that come after its move to memory; the others take the value from before. -/
theorem loop_reads_loaded_after_move {stmts : List Stmt} {op : Operator}
    (accepted : (SourceUnit.module stmts).lower = .ok op) :
    List.Forall₂ (fun f o => ∃ ms, LoopReads f o ms) (Stmt.functionsAll stmts) op.functions :=
  (SourceUnit.functions_of_lower accepted).imp fun _ _ h => h.loopReads

/-- A loop that reads its parameter, assigns it, and reads it again. -/
def rereadingLoop : Function where
  name := "f"
  params := { plain := [⟨"a", none⟩] }
  body :=
    [.whileDo (.ofName "a")
      [.assign "b" (.ofName "a"), .assign "a" (.ofName "b"), .assign "c" (.ofName "a")]]

/-- The test and the first statement take the parameter as it is, the last statement loads it. -/
theorem rereadingLoop_reads :
    ∃ op f ms v, (SourceUnit.module [.function "f" rereadingLoop.params.plain none
        rereadingLoop.body]).lower = .ok op ∧ op.functions = [f] ∧ Renders ms f.entry ∧
      f.formals.head? = some v ∧ ms[0]? = some (.value "a" v) ∧ ms[1]? = some (.value "a" v) ∧
      ms[5]? = some (.load "a") := by
  obtain ⟨op, accepted, hview⟩ := SourceUnit.exists_of_view
    (show (SourceUnit.module [.function "f" rereadingLoop.params.plain none
      rereadingLoop.body]).lower.toOption.map (fun op => op.functions.length) = some 1 by decide +kernel)
  obtain ⟨f, hf⟩ := List.length_eq_one_iff.mp hview
  have hall := loop_reads_loaded_after_move accepted
  rw [hf, show Stmt.functionsAll [.function "f" rereadingLoop.params.plain none rereadingLoop.body] =
    [rereadingLoop] from rfl] at hall
  obtain ⟨ms, reads⟩ := (List.forall₂_cons.mp hall).1
  have hloop : ⟨[], [.read "a", .read "a", .bind "b", .read "b", .bind "a", .read "a", .bind "c"]⟩ ∈
      rereadingLoop.loops := List.mem_cons_self
  have hbinds : ∀ repeated, Loop.Binds ⟨[], repeated⟩ rereadingLoop.params.names "a" := fun _ =>
    .inl (by decide)
  have hfirst : ∀ v, ("a", v) ∈ rereadingLoop.params.names.zip f.formals ∨
      Mark.define "a" v ∈ ms.take 0 → f.formals.head? = some v := by
    intro v hv
    rw [show rereadingLoop.params.names = ["a"] from rfl] at hv
    cases hformals : f.formals <;> simp_all
  obtain ⟨v, htest, hv⟩ := reads.kept _ hloop "a" (hbinds _) [] _ rfl (by unfold Loop.Moves; decide)
  obtain ⟨w, hbody, hw⟩ := reads.kept _ hloop "a" (hbinds _) [.read "a"] _ rfl
    (by unfold Loop.Moves; decide)
  have hlast := reads.loaded _ hloop "a" (hbinds _)
    [.read "a", .read "a", .bind "b", .read "b", .bind "a"] _ rfl (by unfold Loop.Moves; decide)
  have hsame : some v = some w := (hfirst v hv).symm.trans (hfirst w hw)
  cases hsame
  exact ⟨op, f, ms, v, accepted, hf, reads.renders, hfirst v hv, htest, hbody, hlast⟩

/-- A loop that counts up: its variable is read in the test and in the body, and written after that. -/
def countingLoopProgram : List Stmt :=
  [.function "count" [⟨"n", none⟩] none
    [.whileDo (.ofForm (.compare (.ofName "n") [.lt] [.ofInt 10]))
      [.assign "n" (.binOp (.ofName "n") .add (.ofInt 1))]]]

/-- No read of the variable is loaded, although the loop writes it. -/
theorem countingLoopProgram_not_loaded :
    (Stmt.functionsAll countingLoopProgram).flatMap Function.loops =
        [⟨[], [.read "n", .read "n", .bind "n"]⟩] ∧
      ∃ op f, (SourceUnit.module countingLoopProgram).lower = .ok op ∧ op.functions = [f] ∧
        f.ownHeads.countP (Head.isStore "n") = 2 ∧ f.ownHeads.countP (Head.isLoad "n") = 0 := by
  refine ⟨rfl, ?_⟩
  obtain ⟨op, accepted, hview⟩ := SourceUnit.exists_of_view
    (show (SourceUnit.module countingLoopProgram).lower.toOption.map (fun op => op.functions.map fun f =>
      (f.ownHeads.countP (Head.isStore "n"), f.ownHeads.countP (Head.isLoad "n"))) = some [(2, 0)] by
      decide +kernel)
  obtain ⟨f, hf⟩ := List.length_eq_one_iff.mp (by simpa using congrArg List.length hview)
  rw [hf] at hview
  simp only [List.map_cons, List.map_nil, List.cons.injEq, Prod.mk.injEq, and_true] at hview
  exact ⟨op, f, accepted, hf, hview⟩

end RegionIR
