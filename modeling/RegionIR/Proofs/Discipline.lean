import RegionIR.Proofs.Correspondence
import RegionIR.Proofs.Refusals
/-!
# What a statement does to the state around it

Lowering a statement pushes and pops blocks, sites and scopes, and it may put operators into blocks
that were there before. Whatever the statement is, all it pushes has been popped when it is done, and
all that the older blocks have gained is a straight line of operands in the current one, and stores of
variables whose values they hold.
-/
namespace RegionIR

open Lower (Runs)

/-- The state `t` is `s` after a statement, before the operator of the statement is appended. A store in
`ls` is for a variable of the innermost scope that was pending in the block, and is there exactly if the
variable has moved to memory. -/
structure Disciplined (s t : State) : Prop where
  nesting : t.nesting = s.nesting
  sites : t.sites = s.sites
  depth : t.scopes.length = s.scopes.length
  outer : t.scopes.tail = s.scopes.tail
  length : s.blocks.length ≤ t.blocks.length
  current : s.current < s.blocks.length → ∃ (hs : List Head) (ls : List Late),
    t.blocks.contents s.current =
        s.blocks.contents s.current ++ hs.map (Staged.ofHead ·) ++ ls.map Late.staged ∧
      (∀ h ∈ hs, h.opcode ∈ operandOpcodes) ∧
      Retro (fun a v => s.home a = .pending s.current v ∧ t.home a = .memory) ls
  others : ∀ b < s.blocks.length, b ≠ s.current → ∃ ls : List Late,
    t.blocks.contents b = s.blocks.contents b ++ ls.map Late.staged ∧
      Retro (fun a v => s.home a = .pending b v ∧ t.home a = .memory) ls

private theorem Write.scopes_ne_nil {s t : State} {name : String} {r : Option ValueId}
    (h : Write s name r t) :
    t.scopes ≠ [] := by
  intro hnil
  have hhome : t.home name = .undefined := by
    simp [State.home, State.scope, hnil, Scope.home, NameMap.find?]
  cases h with
  | define _ _ _ _ home => simp [home] at hhome
  | promote _ _ _ _ _ home => simp [home] at hhome
  | mark _ _ _ _ _ home => simp [home] at hhome
  | stay _ before _ _ _ home => simp [home, before] at hhome

private theorem Settles.scopes_ne_nil {m t : State} {args : List ValueId} {writes : List Act}
    {own : Head} (h : Settles m args writes own t) (hm : m.scopes ≠ []) : t.scopes ≠ [] := by
  cases h with
  | plain => exact hm
  | define _ _ _ _ write => exact write.scopes_ne_nil
  | store _ _ write => exact write.scopes_ne_nil
  | through _ _ write => exact write.scopes_ne_nil

theorem Simple.scopes_ne_nil {s t : State} {st : Stmt} {own : Head} (h : Simple s st own t)
    (hs : s.scopes ≠ []) : t.scopes ≠ [] := by
  obtain ⟨s₀, reads, heads, args, m, writes, same, flat, settles, -⟩ := h.settles
  apply settles.scopes_ne_nil
  rw [flat.appended.scopes, same.scopes]
  exact hs

theorem Opening.scopes_ne_nil {s t : State} {pre : List Act} {hs : List Head} {slots : List Slot}
    {regions : List Region} {args : List ValueId} (h : Opening s pre hs slots regions args t)
    (hscopes : s.scopes ≠ []) : t.scopes ≠ [] := by
  cases h with
  | inline flat =>
    rw [flat.appended.scopes]
    exact hscopes
  | @loop _ _ x u _ _ _ flat leave written =>
    obtain ⟨-, rfl⟩ | ⟨name, -, write⟩ := written
    · rw [(State.left_of_leave? leave).scopes, show (u.emit _).scopes = u.scopes from rfl,
        flat.appended.scopes]
      exact hscopes
    · exact write.scopes_ne_nil

mutual

theorem Lowers.scopes_ne_nil : ∀ {s s' : State} {stmts : List Stmt}, Lowers s stmts s' → s.scopes ≠ [] →
    s'.scopes ≠ []
  | _, _, _, .nil, hs => hs
  | _, _, _, .simple one rest, hs => rest.scopes_ne_nil (one.scopes_ne_nil hs)
  | _, _, _, @Lowers.compound _ _ u _ _ _ _ _ _ close _ opens regions rest, hs => by
    obtain ⟨pre, heads, slots, m, opened⟩ := opens.opened
    apply rest.scopes_ne_nil
    change (close u).scopes ≠ []
    rw [(opened.finish u).scopes]
    apply regions.scopes_ne_nil
    rw [opened.start.scopes]
    exact opened.opening.scopes_ne_nil hs
  | _, _, _, @Lowers.function _ _ _ v _ _ _ _ _ _ _ _ _ _ bind inner leave rest, hs => by
    obtain ⟨-, -, hscopes, -, -⟩ := (Lower.binds_of_bindParams bind).entry
    apply rest.scopes_ne_nil
    change v.popFunction.scopes ≠ []
    rw [State.popFunction_scopes hscopes inner.extension.toFrame (State.left_of_leave? leave)]
    exact hs

theorem LowersBodies.scopes_ne_nil : ∀ {s s' : State} {bodies : List (List Stmt)} {slots : List Slot},
    LowersBodies s bodies slots s' → s.scopes ≠ [] → s'.scopes ≠ []
  | _, _, _, _, .nil, hs => hs
  | _, _, _, _, .cons inner leave rest, hs => by
    apply rest.scopes_ne_nil
    rw [(State.left_of_leave? leave).scopes]
    exact inner.scopes_ne_nil hs

end

private theorem Opening.opcode {s t : State} {pre : List Act} {hs : List Head} {slots : List Slot}
    {regions : List Region} {args : List ValueId} (h : Opening s pre hs slots regions args t) :
    ∀ h ∈ hs, h.opcode ∈ operandOpcodes := by
  cases h with
  | inline flat => exact flat.opcode
  | loop => simp

private theorem Lowers.before_operator {s s' : State} {st : Stmt} (lowers : Lowers s [st] s') :
    ∃ w op, s' = w.emit op ∧ Extends (some s.current) s w ∧
      (s.current < s.blocks.length → ∃ (hs : List Head) (ls : List Late),
        Gains s w (hs ++ ls.map Late.head) ∧ (∀ h ∈ hs, h.opcode ∈ operandOpcodes) ∧
        Retro (fun a v => s.home a = .pending s.current v ∧ w.home a = .memory) ls) := by
  cases lowers with
  | simple one rest =>
    cases rest
    refine ⟨_, _, rfl, one.extension, ?_⟩
    intro hcur
    obtain ⟨-, s₀, reads, hs, args, m, writes, ls, gains, -, flat, -, -, retro⟩ :=
      one.gains hcur
    exact ⟨hs, ls, gains, flat.opcode, retro⟩
  | compound opens regions rest =>
    cases rest
    obtain ⟨pre, hs, slots, m, opened⟩ := opens.opened
    have hbodies := opened.bodies regions.extension
    refine ⟨_, _, rfl, opened.opening.extension.trans (hbodies.weaken _), ?_⟩
    intro hcur
    obtain ⟨ls, gains, retro⟩ := opened.opening.gains hcur hbodies
    exact ⟨hs, ls, gains, opened.opening.opcode, retro⟩
  | function _ bind inner leave rest =>
    cases rest
    have hfun := Extends.function (Lower.binds_of_bindParams bind) inner.extension
      (State.left_of_leave? leave)
    refine ⟨_, _, rfl, hfun.weaken _, ?_⟩
    intro hcur
    obtain ⟨ls, hls, retro⟩ := hfun.stored s.current hcur (by simp)
    refine ⟨[], ls, ?_, by simp, retro⟩
    rw [Gains, hls, Late.map_staged, List.nil_append]

private theorem State.contents_of_emit_eq {t w : State} {op op' : Staged} (h : t.emit op = w.emit op')
    (hcur : t.current < t.blocks.length) :
    t.current = w.current ∧ t.blocks.contents t.current = w.blocks.contents t.current := by
  have hcurrent : t.current = w.current := congrArg (·.nesting.headD 0) h
  have hlen : t.blocks.length = w.blocks.length := by
    have hlen := congrArg (·.blocks.length) h
    simpa [State.emit, State.emitInto] using hlen
  have hcontents := congrArg (·.blocks.contents t.current) h
  simp only [State.emit, State.emitInto] at hcontents
  rw [← hcurrent, Blocks.contents_emit_self _ _ _ hcur,
    Blocks.contents_emit_self _ _ _ (by rw [← hlen]; exact hcur)] at hcontents
  exact ⟨hcurrent, (List.append_inj' hcontents rfl).1⟩

namespace Lower

/-- No block is left out of order, whatever the statement and the state. -/
theorem statement_not_misnested (st : Stmt) (s t : State) (block : Nat) :
    statement st s ≠ .error (.misnested block) t := by
  intro h
  have reports := reports_statement st (s := s)
  cases ho : st.offence? s.site with
  | none =>
    rw [ho] at reports
    obtain ⟨op, u, run⟩ := reports
    rw [Runs, h] at run
    cases run
  | some r =>
    rw [ho] at reports
    obtain ⟨u, hu⟩ := reports
    rw [h] at hu
    cases hu

private theorem disciplined_of_statement {st : Stmt} {s t : State} {op : Staged}
    (hscopes : s.scopes ≠ []) (run : Runs (statement st) s op t) : Disciplined s t := by
  have lowers : Lowers s [st] (t.emit op) := statement_lowers st run .nil
  obtain ⟨w, own, heq, ext, gains⟩ := lowers.before_operator
  have hsame : t.scopes = w.scopes := congrArg (·.scopes) heq
  have hhome (a : String) : t.home a = w.home a := State.home_congr w a hsame
  have hnesting : t.nesting = s.nesting := (congrArg (·.nesting) heq).trans ext.nesting
  have hlen : t.blocks.length = w.blocks.length := by
    have hlen := congrArg (·.blocks.length) heq
    simpa [State.emit, State.emitInto] using hlen
  have hcurrent : t.current = s.current := by simp only [State.current, hnesting]
  have houter : t.scopes.tail = s.scopes.tail := by rw [hsame, ext.outer]
  refine ⟨hnesting, (congrArg (·.sites) heq).trans ext.sites, ?_, houter, ?_, ?_, ?_⟩
  · have hne : t.scopes ≠ [] := lowers.scopes_ne_nil hscopes
    have hdepth := congrArg List.length houter
    simp only [List.length_tail] at hdepth
    have := List.length_pos_iff.mpr hne
    have := List.length_pos_iff.mpr hscopes
    omega
  · rw [hlen]
    exact ext.length
  · intro hcur
    obtain ⟨hs, ls, hgains, hops, retro⟩ := gains hcur
    refine ⟨hs, ls, ?_, hops, retro.congr fun a v => by rw [hhome]⟩
    obtain ⟨-, hcontents⟩ := State.contents_of_emit_eq heq (by
      rw [hcurrent, hlen]
      exact hcur.trans_le ext.length)
    rw [hcurrent] at hcontents
    rw [hcontents, hgains, Late.map_staged, List.map_append, List.append_assoc]
  · intro b hb hne
    obtain ⟨ls, hls, retro⟩ := ext.stored b hb (by simpa using hne)
    refine ⟨ls, ?_, retro.congr fun a v => by rw [hhome]⟩
    have hcontents := congrArg (·.blocks.contents b) heq
    simp only [State.emit, State.emitInto] at hcontents
    rw [Blocks.contents_emit_of_ne _ _ _ _ (by rwa [hcurrent]),
      Blocks.contents_emit_of_ne _ _ _ _ (by rwa [ext.current])] at hcontents
    rw [hcontents, hls]

/-- Lowering a statement never leaves a block that is not the innermost one. If it succeeds, all stacks
are as before but for the variables of the innermost scope, and what was in a block is still there: the
current block has gained operands of the statement and stores of its own variables, any other one only
stores of variables that were pending in it. -/
theorem statement_keeps_discipline (st : Stmt) {s : State} (hscopes : s.scopes ≠ []) :
    (∀ block t, statement st s ≠ .error (.misnested block) t) ∧
      ∀ op t, Runs (statement st) s op t → Disciplined s t := by
  constructor
  · intro block t
    exact statement_not_misnested st s t block
  · intro op t run
    exact disciplined_of_statement hscopes run

end Lower

/-- Two variables with one value each: `total` in the outermost block, and `limit` in a branch that has
been left. Lowering is inside the other branch. -/
def twoBranchesState : State where
  blocks := [[.ofHead ((Head.py "assign").withResult (.named "total") .unknown)],
    [.ofHead ((Head.py "assign").withResult (.named "limit") .unknown)], []]
  nesting := [2, 0]
  scopes := [{ pending := [("total", 0, .named "total"), ("limit", 1, .named "limit")] }]

def drainingLoop : Stmt :=
  .whileDo (.ofName "more")
    [.assign "total" (.binOp (.ofName "total") .add (.ofInt 1)), .assign "limit" (.ofName "total")]

theorem drainingLoop_keeps_discipline : twoBranchesState.scopes ≠ [] ∧
    ∃ op t, Runs (Lower.statement drainingLoop) twoBranchesState op t ∧ Disciplined twoBranchesState t ∧
      (t.blocks.take 3).map List.length = [2, 2, 0] := by
  have hscopes : twoBranchesState.scopes ≠ [] := List.cons_ne_nil _ _
  obtain ⟨op, t, run, hlengths⟩ : ∃ op t, Runs (Lower.statement drainingLoop) twoBranchesState op t ∧
      (t.blocks.take 3).map List.length = [2, 2, 0] :=
    Lower.exists_runs_of_view (fun t => (t.blocks.take 3).map List.length) (by decide +kernel)
  exact ⟨hscopes, op, t, run, (Lower.statement_keeps_discipline drainingLoop hscopes).2 op t run, hlengths⟩

end RegionIR
