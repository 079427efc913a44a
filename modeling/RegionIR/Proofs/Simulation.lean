import RegionIR.Proofs.Agreement
/-!
# Statements and their operators run alike

The operators that statements without loops grow do what the statements do: they fail where the
statements fail, return what they return, and else end in a machine that agrees with the variables.
-/
namespace RegionIR

open Lower (Runs)
open Operator

universe u

variable {D : Type u} {I : Interp D}

/-- Two runs end alike, and in related states if they go on. -/
inductive Matches (P : Activation D → Machine D → Prop) :
    Option (Activation D × Outcome D) → Option (Machine D × Outcome D) → Prop
  | failed : Matches P none none
  | returned {a : Activation D} {m : Machine D} {v : Option D} (trace : m.trace = a.trace) :
      Matches P (some (a, .returned v)) (some (m, .returned v))
  | next {a : Activation D} {m : Machine D} (related : P a m) :
      Matches P (some (a, .next)) (some (m, .next))

namespace Matches

variable {P Q : Activation D → Machine D → Prop} {r : Option (Activation D × Outcome D)}
  {r' : Option (Machine D × Outcome D)}

private theorem proceed {f : Activation D → Option (Activation D × Outcome D)}
    {g : Machine D → Option (Machine D × Outcome D)} (h : Matches P r r')
    (hnext : ∀ a m, P a m → Matches Q (f a) (g m)) :
    Matches Q (RegionIR.proceed r f) (RegionIR.proceed r' g) := by
  cases h with
  | failed => exact .failed
  | returned trace => exact .returned trace
  | next related => exact hnext _ _ related

theorem observed (h : Matches P r r') (trace : ∀ a m, P a m → m.trace = a.trace) :
    (r'.map fun p => (p.1.trace, p.2)) = r.map fun p => (p.1.trace, p.2) := by
  cases h with
  | failed => rfl
  | returned trace => simp [trace]
  | next related => simp [trace _ _ related]

end Matches

/-- The names of acts are plain, and those that they bind mean nothing outside. -/
structure Local (outside : String → Option D) (acts : List Act) : Prop where
  plain : ∀ x ∈ Act.namesAll acts, PlainName x
  unbound : ∀ x ∈ Act.boundAll acts, outside x = none

namespace Local

variable {outside : String → Option D} {acts more : List Act}

private theorem left (h : Local outside (acts ++ more)) : Local outside acts where
  plain x hx := h.plain x (by rw [Act.namesAll_append]; exact List.mem_append_left _ hx)
  unbound x hx := h.unbound x (by rw [Act.boundAll_append]; exact List.mem_append_left _ hx)

private theorem right (h : Local outside (acts ++ more)) : Local outside more where
  plain x hx := h.plain x (by rw [Act.namesAll_append]; exact List.mem_append_right _ hx)
  unbound x hx := h.unbound x (by rw [Act.boundAll_append]; exact List.mem_append_right _ hx)

private theorem inner (h : Local outside (.nest acts :: more)) : Local outside acts where
  plain x hx := h.plain x (by
    rw [Act.namesAll, Act.names]
    exact List.mem_append_left _ hx)
  unbound x hx := h.unbound x (by
    rw [Act.boundAll, Act.accessesAll, Act.accesses, List.filterMap_append]
    exact List.mem_append_left _ hx)

private theorem tail {act : Act} (h : Local outside (act :: more)) : Local outside more :=
  right (show Local outside ([act] ++ more) from h)

private theorem bound (h : Local outside acts) :
    ∀ x ∈ Act.boundAll acts, PlainName x ∧ outside x = none :=
  fun x hx => ⟨h.plain x (Act.mem_namesAll_of_boundAll acts hx), h.unbound x hx⟩

private theorem reads {names : List String} (h : Local outside (names.map .read)) :
    ∀ x ∈ names, PlainName x := by
  intro x hx
  exact h.plain x (by rwa [Act.namesAll_reads])

end Local

section Statements

variable {outside : String → Option D} {Z : List String} {own : Option Nat} {W : String → Prop}
  {s t : State} {a : Activation D} {m : Machine D}

private theorem Agrees.computes (h : Agrees outside Z own W s a m) {e : Expr} {x : Operand}
    (run : Runs (Lower.operand e) s x t) (plain : ∀ y ∈ e.reads, PlainName y) :
    ∃ line, Appended s line t ∧ ∀ {P : Activation D → Machine D → Prop}
      {r : Option (Activation D × Outcome D)} {rest : List Operator},
      (e.eval I a.env = none → r = none) →
      (∀ m', Agrees outside Z own W t a m' → m'.values x.1 = e.eval I a.env →
        Matches P r (runAll I m' rest)) →
      Matches P r (runAll I m (line.map leaf ++ rest)) := by
  obtain ⟨line, flattens⟩ := Lower.flattens_of_operand e run
  obtain ⟨-, hyields⟩ := flattens.yields (I := I) (h.ready plain)
  refine ⟨line, flattens.appended, fun {P r rest} hnone hrest => ?_⟩
  rw [runAll_append]
  rcases hyields with ⟨m', hrun, hlater, hvalue⟩ | ⟨hrun, heval⟩
  · rw [hrun, proceed_next]
    exact hrest m' (h.later flattens.appended hlater) hvalue
  · rw [hrun, proceed_none, hnone heval]
    exact .failed

private theorem Gains.of_blocks (h : t.blocks = s.blocks) : Gains s t [] := by
  rw [Gains, h, List.map_nil, List.append_nil]

private theorem Lower.current_of_operand {e : Expr} {x : Operand} (run : Runs (operand e) s x t) :
    t.current = s.current := by
  obtain ⟨hs, flat⟩ := flat_of_operand run
  exact flat.appended.current

private theorem Write.gains {u : State} {name : String} {r : Option ValueId} {line : List Head}
    (write : Write t name r u) (happ : Appended s line t) (placed : s.Placed) :
    ∃ ls : List Late, Gains s u (line ++ ls.map Late.head) ∧
      Retro (fun x v => t.home x = .pending t.current v ∧ u.home x = .memory) ls := by
  have hcur := placed.current_lt
  obtain ⟨ls, hls, retro⟩ := write.stored (b := t.current)
    (by rw [happ.current, happ.length_blocks]; exact hcur)
  refine ⟨ls, ?_, retro⟩
  rw [Gains, ← happ.current, hls, happ.current, happ.contents_current hcur, Late.map_staged,
    List.map_append, List.append_assoc]

private theorem Agrees.writes (h : Agrees outside Z (some s.current) W s a m) (placed : s.Placed)
    {u : State} {name : String} {v : Option ValueId} {e : Expr} {x : Operand} {hs : List Head}
    (run : Runs (Lower.operand e) s x t) (write : Write t name v u) (gains : Gains s u hs)
    (plain : ∀ y ∈ e.reads, PlainName y) {P : Activation D → Machine D → Prop}
    {r : Option (Activation D × Outcome D)} {rest : List Operator}
    (hnone : e.eval I a.env = none → r = none)
    (hrest : ∀ m', Agrees outside Z none (Moved t s.current (fun y => u.home y = .memory) W) t a m' →
      m'.values x.1 = e.eval I a.env → Matches P r (runAll I m' rest)) :
    Matches P r (runAll I m (hs.map leaf ++ rest)) := by
  obtain ⟨line, happ, hline⟩ := h.computes (I := I) run plain
  obtain ⟨ls, hgains, retro⟩ := write.gains happ placed
  rw [gains.unique hgains, List.map_append, List.append_assoc]
  refine hline hnone fun m₁ h₁ hvalue => ?_
  rw [happ.current] at retro
  obtain ⟨m₂, hrun, hvalues, h₂⟩ := h₁.flush (I := I) (by rw [happ.nesting]; exact placed.current_mem)
    retro
  rw [runAll_append, hrun, proceed_next]
  exact hrest m₂ h₂ (by rw [hvalues, hvalue])

private theorem Agrees.assigns (h : Agrees outside Z (some s.current) W s a m) (placed : s.Placed)
    {name : String} {e : Expr} {x : Operand} {declared : Option Ty} {hs : List Head}
    (run : Runs (Lower.operand e) s x t) (gains : Gains s (t.assign name x declared).2 hs)
    (plain : ∀ y ∈ e.reads, PlainName y) (hname : PlainName name) :
    Matches (Agrees outside Z (some s.current) W (t.assign name x declared).2)
      ((e.eval I a.env).map fun d => (a.set name d, .next))
      (runAll I m (hs.map leaf ++ [leaf (t.assign name x declared).1])) := by
  have hcur := Lower.current_of_operand run
  rcases t.write_assign name x declared with ⟨value, ty, -, hown, write⟩ | ⟨-, hown, write⟩
  · refine h.writes placed run write gains plain (by simp +contextual) fun m' h' hvalue => ?_
    rw [runAll_singleton, hown, run_leaf I m' (by cases declared <;> simp), Head.effect_copy, hvalue]
    cases e.eval I a.env with
    | none => exact .failed
    | some d =>
      rw [← hcur] at h' ⊢
      exact .next (h'.reopen.define write hname)
  · refine h.writes placed run write gains plain (by simp +contextual) fun m' h' hvalue => ?_
    rw [runAll_singleton, hown, run_leaf I m' (by simp [storeHead]), Head.effect_storeHead, hvalue]
    cases e.eval I a.env with
    | none => exact .failed
    | some d => exact .next (h'.reopen.rewrite write)

private theorem Agrees.updates (h : Agrees outside Z (some s.current) W s a m) (placed : s.Placed)
    {name : String} {e : Expr} {x : Operand} {op : BinaryOperator} {hs : List Head}
    (run : Runs (Lower.operand e) s x t) (gains : Gains s (t.writeThrough name) hs)
    (plain : ∀ y ∈ e.reads, PlainName y) (unbound : outside name = none)
    (hmoved : ∀ y, (t.writeThrough name).home y = .memory → W y ∧ y ∈ Z) :
    Matches (Agrees outside Z (some s.current) W (t.writeThrough name))
      ((e.eval I a.env).bind fun d => (a.env name).map fun old =>
        (a.set name (I.binary op old d), .next))
      (runAll I m (hs.map leaf ++ [leaf (augHead name op x)])) := by
  have write := t.write_writeThrough name
  have hmem : (t.writeThrough name).home name = .memory := by rw [write.moves.1, if_pos rfl]
  obtain ⟨hW, hZ⟩ := hmoved name hmem
  refine h.writes placed run write gains plain (by simp +contextual) fun m' h' hvalue => ?_
  -- the old value has been stored, wherever the variable was held
  have hold : m'.memory name = a.env name :=
    h'.fetch (fun _ => unbound) ⟨fun _ _ => hmem, fun _ => hW⟩ hZ
  rw [runAll_singleton, run_leaf I m' (by simp [augHead]), Head.effect_augHead, hvalue, hold]
  cases e.eval I a.env with
  | none => exact .failed
  | some d =>
    cases a.env name with
    | none => exact .failed
    | some old => exact .next (h'.reopen.rewrite write)

/-- A simple statement and what it appends run alike. -/
theorem Simple.simulates {st : Stmt} {op : Head} {hs : List Head} (one : Simple s st op t)
    (gains : Gains s t hs) (placed : s.Placed) (site : s.inFunction = true)
    (free : st.loopFree = true) (here : Local outside (st.acts true))
    (hmoved : ∀ x, t.home x = .memory → W x ∧ x ∈ Z)
    (h : Agrees outside Z (some s.current) W s a m) :
    Matches (Agrees outside Z (some s.current) W t) (st.exec I a)
      (runAll I m (hs.map leaf ++ [leaf op])) := by
  -- an expression whose value the operator takes, with nothing written
  have hvalue : ∀ {e : Expr} {x : Operand} {r : Option (Activation D × Outcome D)},
      Runs (Lower.operand e) s x t → (∀ y ∈ e.reads, PlainName y) →
      (e.eval I a.env = none → r = none) →
      (∀ m', Agrees outside Z (some s.current) W t a m' → m'.values x.1 = e.eval I a.env →
        Matches (Agrees outside Z (some s.current) W t) r (runAll I m' [leaf op])) →
      Matches (Agrees outside Z (some s.current) W t) r (runAll I m (hs.map leaf ++ [leaf op])) := by
    intro e x r run hplain hnone hrest
    obtain ⟨line, happ, hline⟩ := h.computes (I := I) run hplain
    rw [gains.unique (happ.contents_current placed.current_lt)]
    exact hline hnone hrest
  cases one with
  | @ret _ value xs _ run =>
    cases value with
    | none =>
      simp only [Option.toList, Lower.operands, Lower.runs_pure] at run
      obtain ⟨rfl, rfl⟩ := run
      rw [gains.unique (.of_blocks rfl), List.map_nil, List.nil_append, runAll_singleton,
        run_leaf I m (by simp), show (Head.py "return").withArgs [] = Head.py "return" from rfl,
        Head.effect_return, Stmt.exec]
      exact .returned h.trace
    | some e =>
      simp only [Option.toList, Lower.operands, Lower.runs_bind, Lower.runs_pure] at run
      obtain ⟨x, _, hx, _, _, ⟨rfl, rfl⟩, rfl, rfl⟩ := run
      simp only [Stmt.acts, Option.toList, Expr.readsAll, List.append_nil] at here
      rw [Stmt.exec_ret]
      refine hvalue hx here.reads (by simp +contextual) fun m' h' hv => ?_
      rw [runAll_singleton, run_leaf I m' (by simp), Head.effect_return_value, hv]
      cases e.eval I a.env with
      | none => exact .failed
      | some d => exact .returned h'.trace
  | @expr _ e x _ run =>
    rw [Stmt.acts] at here
    rw [Stmt.exec_expr]
    refine hvalue run here.reads (by simp +contextual) fun m' h' hv => ?_
    rw [runAll_singleton, run_leaf I m' (by simp), Head.effect_expr, hv]
    cases e.eval I a.env with
    | none => exact .failed
    | some d => exact .next h'.log
  | pass =>
    rw [gains.unique (.of_blocks rfl), List.map_nil, List.nil_append, runAll_singleton,
      run_leaf I m (by simp), Head.effect_pass, Stmt.exec]
    exact .next h
  | breakLoop => simp [Stmt.loopFree] at free
  | continueLoop => simp [Stmt.loopFree] at free
  | @declare _ target annot value simple xs _ site' run =>
    rw [if_pos site] at site'
    obtain ⟨-, rfl⟩ := site'
    simp only [Option.toList, Lower.operands, Lower.runs_pure] at run
    obtain ⟨rfl, rfl⟩ := run
    have same : Alike s (s.declareTarget target annot) := .declareTarget target annot
    rw [gains.unique (.of_blocks same.blocks), List.map_nil, List.nil_append, runAll_singleton,
      run_leaf I m (by simp [fieldHead]),
      show (fieldHead target annot simple).withArgs [] = fieldHead target annot simple from rfl,
      Head.effect_fieldHead, Stmt.exec]
    exact .next (h.congr same.home same.nesting same.counter)
  | @assign _ name e x _ _ run =>
    simp only [Stmt.acts, Expr.name?, List.filterMap_cons, List.filterMap_nil] at here
    rw [Stmt.exec_assign]
    exact h.assigns placed run gains here.left.reads
      (here.right.plain name (by simp [Act.namesAll, Act.names]))
  | @annotate _ name annot e simple x _ _ _ run =>
    simp only [Stmt.acts, Expr.name?, Option.toList, Expr.readsAll, List.append_nil, Option.isSome,
      and_self, if_true] at here
    rw [Stmt.exec_annAssign]
    exact h.assigns placed run gains here.left.reads
      (here.right.plain name (by simp [Act.namesAll, Act.names]))
  | @augAssign _ name op e x _ _ run =>
    simp only [Stmt.acts, Expr.name?, Option.toList] at here
    rw [Stmt.exec_augAssign]
    exact h.updates placed run gains here.left.reads (here.right.unbound name
      (by simp [Act.boundAll, Act.accessesAll, Act.accesses, Access.bound?])) hmoved

end Statements

private theorem Opens.branch_of_loopFree {s t : State} {st : Stmt} {op : Head} {slots : List Slot}
    {bodies : List (List Stmt)} {close : State → State} (h : Opens s st op slots bodies t close)
    (free : st.loopFree = true) : ∃ test yes no x, (∃ span, st = .mk (.ifElse test yes no) span) ∧
      op = (Head.py "if").withArgs [x] ∧ slots = [] ∧ bodies = branches yes no ∧ close = id ∧
      Runs (Lower.operand test) s x t := by
  cases h with
  | @branch _ test yes no x span run =>
    exact ⟨test, yes, no, x, ⟨span, rfl⟩, rfl, rfl, rfl, rfl, run⟩
  | whileDo _ => simp [Stmt.loopFree] at free
  | forIn _ => simp [Stmt.loopFree] at free
  | classDef => simp [Stmt.loopFree] at free

private theorem Opening.of_no_slots {s m : State} {pre : List Act} {hs : List Head}
    {regions : List Region}
    {args : List ValueId} (h : Opening s pre hs [] regions args m) : Appended s hs m ∧ regions = [] := by
  cases h with
  | inline flat => exact ⟨flat.appended, rfl⟩

private theorem branches_getD (yes no : List Stmt) (c : Bool) :
    (branches yes no)[if c then 0 else 1]?.getD [] = if c then yes else no := by
  cases c <;> cases no <;> rfl

private theorem loopFree_branches {yes no : List Stmt} (hyes : Stmt.loopFreeAll yes = true)
    (hno : Stmt.loopFreeAll no = true) : ∀ body ∈ branches yes no, Stmt.loopFreeAll body = true := by
  intro body hbody
  unfold branches at hbody
  split at hbody
  · rw [List.mem_singleton.mp hbody, hyes]
  · rcases List.mem_pair.mp hbody with rfl | rfl
    · exact hyes
    · exact hno

mutual

/-- Statements without loops run like the operators that they grow. -/
theorem Grows.simulates {outside : String → Option D} : ∀ {Z : List String} {s s' : State}
    {stmts : List Stmt} {ops : List Operator}, Grows Z s stmts s' ops → s.Placed →
    s.inFunction = true → Stmt.loopFreeAll stmts = true → Local outside (Stmt.actsAll true stmts) →
    ∀ {W : String → Prop}, (∀ x, s'.home x = .memory → W x ∧ x ∈ Z) →
    ∀ {a : Activation D} {m : Machine D}, Agrees outside Z (some s.current) W s a m →
    Matches (Agrees outside Z (some s'.current) W s') (Stmt.execAll I a stmts) (runAll I m ops)
  | _, _, _, _, _, .nil, _, _, _, _, _, _, _, _, h => .next h
  | Z, s, s', _, _, @Grows.simple _ _ t _ st own stmts hs ops one gains rest, placed, site, free,
      here, W, hmoved, a, m, h => by
    rw [Stmt.loopFreeAll, Bool.and_eq_true] at free
    rw [Stmt.actsAll] at here
    have hnext := one.extension.emitted (.ofHead own)
    have hone := one.simulates (I := I) gains placed site free.1 here.left
      (fun x hx => hmoved x (rest.lowers.extension.memory x hx)) h
    have hops : hs.map leaf ++ leaf own :: ops = (hs.map leaf ++ [leaf own]) ++ ops := by simp
    rw [Stmt.execAll, hops, runAll_append]
    refine hone.proceed fun a' m' h' => ?_
    refine rest.simulates (placed.extension hnext)
      (by rw [State.inFunction_congr s hnext.sites, site]) free.2 here.right hmoved ?_
    rw [hnext.current]
    exact h'.congr (fun _ => rfl) rfl rfl
  | Z, s, s', _, _, @Grows.compound _ _ t n u _ st own slots more bodies close pre hs regions others
      stmts ls ops opens opened inner retro rest, placed, site, free, here, W, hmoved, a, m, h => by
    rw [Stmt.loopFreeAll, Bool.and_eq_true] at free
    rw [Stmt.actsAll] at here
    have hopen := opened.opening.extension
    have hnext := opened.emitted inner.lowers.extension (.ofHead own (slots ++ more))
    obtain ⟨test, yes, no, x, ⟨span, hst⟩, hown, hslots, hbodies, hclose, run⟩ :=
      opens.branch_of_loopFree free.1
    have hopening := opened.opening
    rw [hslots] at hopening
    obtain ⟨happ, hregions⟩ := hopening.of_no_slots
    have hreads : ∀ y ∈ test.reads, PlainName y := by
      have hstmt := here.left
      rw [hst, Stmt.acts] at hstmt
      exact hstmt.left.reads
    obtain ⟨line, happ', hline⟩ := h.computes (I := I) run hreads
    have heq : hs = line := by
      refine Gains.unique (s := s) (t := t) ?_ (happ'.contents_current placed.current_lt)
      rw [Gains, opened.start.blocks]
      exact happ.contents_current placed.current_lt
    have hsite : t.inFunction = true := by rw [State.inFunction_congr s happ'.sites, site]
    have hfree : ∀ body ∈ bodies, Stmt.loopFreeAll body = true := by
      have hif := free.1
      rw [hst, Stmt.loopFree, Bool.and_eq_true, Bool.and_eq_true] at hif
      rw [hbodies]
      exact loopFree_branches hif.2.1 hif.2.2
    have hlocal : Local outside (bodies.map fun body => .nest (Stmt.actsAll true body)) := by
      have hacts := opened.acts hopen.sites
      rw [site, hsite] at hacts
      have hstmt := here.left
      rw [hacts] at hstmt
      exact hstmt.right
    -- a variable that moves in the bodies is stored by the block that holds it, before the branch
    have hbranch : ∀ x, u.home x = .memory →
        Moved t s.current (fun y => (close u).home y = .memory) W x ∧ x ∈ Z := by
      intro y hy
      have hclosed : (close u).home y = .memory := by rw [(opened.finish u).home, hy]
      obtain ⟨hW, hZ⟩ := hmoved y (rest.lowers.extension.memory y hclosed)
      exact ⟨⟨fun _ _ => hclosed, fun _ => hW⟩, hZ⟩
    rw [Stmt.execAll, hst, Stmt.exec_ifElse, hregions, List.nil_append, List.map_append,
      List.append_assoc, heq, hown]
    refine hline (fun hnone => by simp [hnone]) fun m₁ h₁ hvalue => ?_
    obtain ⟨m₂, hrun, hvalues, h₂⟩ := h₁.flush (I := I)
      (by rw [happ'.nesting]; exact placed.current_mem) (retro.congr fun y v => by rw [happ'.home])
    rw [runAll_append, hrun, proceed_next, runAll, run_branch, hvalues, hvalue]
    cases test.eval I a.env with
    | none => exact .failed
    | some c =>
      have hinner := inner.simulates ((placed.extension hopen).sameVars opened.start) hsite hfree hlocal
        hbranch h₂ (if I.truth c then 0 else 1)
      rw [hbodies, branches_getD] at hinner
      refine hinner.proceed fun a' m' h' => ?_
      refine rest.simulates (placed.extension hnext)
        (by rw [State.inFunction_congr s hnext.sites, site]) free.2 here.right hmoved ?_
      rw [hnext.current]
      refine (h'.mono ?_).congr (opened.finish u).home (opened.finish u).nesting
        (opened.finish u).counter
      intro y b v hp hne hW
      refine ⟨fun w hw => ?_, fun _ => hW⟩
      rcases inner.lowers.extension.pending y _ w hw with hu | hu
      · rw [hp] at hu
        cases hu
        exact absurd rfl hne
      · rw [hp] at hu
        exact Home.noConfusion hu
  | _, _, _, _, _, .function _ _ _ _ _, _, _, free, _, _, _, _, _, _ => by
    simp [Stmt.loopFreeAll, Stmt.loopFree] at free

/-- A branch runs the region that it picks. -/
theorem GrowsBodies.simulates {outside : String → Option D} : ∀ {Z : List String} {s s' : State}
    {bodies : List (List Stmt)} {slots : List Slot} {regions : List Region},
    GrowsBodies Z s bodies slots s' regions → s.Placed → s.inFunction = true →
    (∀ body ∈ bodies, Stmt.loopFreeAll body = true) →
    Local outside (bodies.map fun body => .nest (Stmt.actsAll true body)) →
    ∀ {W : String → Prop}, (∀ x, s'.home x = .memory → W x ∧ x ∈ Z) →
    ∀ {a : Activation D} {m : Machine D}, Agrees outside Z none W s a m → ∀ k : Nat,
    Matches (Agrees outside Z none W s') (Stmt.execAll I a (bodies[k]?.getD [])) (runNth I m k regions)
  | _, _, _, _, _, _, .nil, _, _, _, _, _, _, _, _, h, _ => .next h
  | Z, s, s', _, _, _, @GrowsBodies.cons _ _ t u _ stmts bodies slots ops ls regions inner leave late
      rest, placed, site, free, here, W, hmoved, a, m, h, k => by
    have left := State.left_of_leave? leave
    have hext := inner.lowers.extension
    have hregion := hext.region left
    have hplaced := placed.extension (hregion.weaken _)
    have hsite : u.inFunction = true := by rw [State.inFunction_congr s hregion.sites, site]
    have hmoved' : ∀ x, u.home x = .memory → W x ∧ x ∈ Z := fun x hx =>
      hmoved x (rest.lowers.extension.memory x hx)
    rw [List.map_cons] at here
    cases k with
    | zero =>
      have hinner := inner.simulates placed.enter site (free stmts List.mem_cons_self) here.inner
        (fun x hx => hmoved' x (by rwa [left.home])) (h.enter placed)
      rw [List.getElem?_cons_zero, Option.getD_some, runNth_zero, runAll_append,
        ← proceed_stay (Stmt.execAll I a stmts)]
      refine hinner.proceed fun a' m' h' => ?_
      rw [show t.current = s.blocks.length from hext.current] at h'
      obtain ⟨m'', hrun, -, h''⟩ := h'.flush (I := I) (by rw [left.nesting]; simp) late
      have hq : s.blocks.length ∉ u.nesting := by
        rw [hregion.nesting]
        intro hq
        exact lt_irrefl _ (placed.nesting _ hq)
      have hages := rest.lowers.ages
      rw [hsite] at hages
      rw [hrun]
      exact .next ((h''.leave left hq).skip hplaced rest.lowers.extension hages here.tail.bound hmoved)
    | succ k =>
      have hages := (inner.lowers.ages.start (s := s) rfl fun _ => rfl).finish left.counter left.home
      rw [show s.enter.inFunction = true from site] at hages
      rw [List.getElem?_cons_succ, runNth_succ]
      exact rest.simulates hplaced hsite (fun body hb => free body (List.mem_cons_of_mem _ hb)) here.tail
        hmoved (h.skip placed hregion hages here.inner.bound hmoved') k

end

end RegionIR
