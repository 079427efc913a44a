import RegionIR.Proofs.Preorder
import RegionIR.Proofs.Temporaries
/-!
# The journal accounts for the tree

The journal of a pass tells which blocks are entered and left, what is loaded and which variables move to
memory. `Accounts s es s'` says that the events `es` tell all of this about the way from `s` to `s'`. Such
accounts can be put together like the steps of the pass, and for a whole program they are an account of
its tree: one entry per region in pre-order, one load per `load`, and all operators of every block.
-/
namespace RegionIR

open Lower (Runs)
open Operator

namespace Event

def entry? : Event → Option (Nat × Nat)
  | entered block depth => some (depth, block)
  | _ => none

def exit? : Event → Option Nat
  | left block _ => some block
  | _ => none

def load? : Event → Option (Option Attr × List ValueId)
  | loaded name value => some (some (.text name), [value])
  | _ => none

/-- Whether a variable is moved to memory whose definition is in the given block. -/
def promotes (block : Nat) : Event → Bool
  | promoting _ _ b => b = block
  | _ => false

def isBracket : Event → Bool
  | entered .. | left .. => true
  | _ => false

/-- The blocks that are open after an event, with the last one first. Only that one can be left. -/
def follow (opened : List Nat) : Event → Option (List Nat)
  | entered block _ => some (block :: opened)
  | left block _ => if opened.head? = some block then some opened.tail else none
  | _ => some opened

/-- The blocks that are open in the end. Nothing when a block is left that is not the last one. -/
def followAll (opened : List Nat) : List Event → Option (List Nat)
  | [] => some opened
  | e :: es => (follow opened e).bind fun opened => followAll opened es

private theorem followAll_append (opened : List Nat) (es es' : List Event) :
    followAll opened (es ++ es') = (followAll opened es).bind fun opened => followAll opened es' := by
  induction es generalizing opened with
  | nil => rfl
  | cons e es ih =>
    rw [List.cons_append, followAll, followAll, Option.bind_assoc]
    simp only [ih]

private theorem follow_of_not_isBracket {e : Event} (h : e.isBracket = false) :
    e.entry? = none ∧ e.exit? = none ∧ ∀ opened, follow opened e = some opened := by
  cases e with
  | entered => simp [isBracket] at h
  | left => simp [isBracket] at h
  | _ => exact ⟨rfl, rfl, fun _ => rfl⟩

end Event

/-- How many variables are moved to memory whose definitions are in the given block. -/
def promotions (block : Nat) (es : List Event) : Nat := es.countP (Event.promotes block)

private theorem promotions_append (block : Nat) (es es' : List Event) :
    promotions block (es ++ es') = promotions block es + promotions block es' := List.countP_append

def Head.load? (h : Head) : Option (Option Attr × List ValueId) :=
  if h.opcode = "py.load" then some (h.attrs.get? "name", h.results) else none

namespace Operator

def loadsOf (walk : List Operator) : List (Option Attr × List ValueId) := walk.filterMap (·.head.load?)

end Operator

namespace Walk

def nested : Walk Nat (Nat × Region) where
  atRegion depth r := [(depth, r)]
  within depth _ := depth + 1

@[simp] theorem nested_single (depth : Nat) (label : Option Label) (ops : List Operator)
    (rs : List Region) : nested.regions depth (.single label ops :: rs) =
      (depth, .single label ops) :: (nested.items (depth + 1) ops ++ nested.regions depth rs) := by
  simp [regions_single, nested]

private theorem nested_append (depth : Nat) (ops others : List Operator) :
    nested.items depth (ops ++ others) = nested.items depth ops ++ nested.items depth others := by
  have hpast : ops.foldl nested.past depth = depth := List.foldl_fixed _
  rw [items_append_past, hpast]

@[simp] theorem nested_leaves (depth : Nat) (hs : List Head) : nested.items depth (hs.map .leaf) = [] := by
  induction hs with
  | nil => rfl
  | cons h hs ih => exact ih

end Walk

namespace Operator

/-- The regions below an operator in pre-order with their depths, the regions of the operator itself being
at the given one. -/
def nested (depth : Nat) (op : Operator) : List (Nat × Region) := Walk.nested.operator depth op

private theorem loadsOf_append (walk others : List Operator) :
    loadsOf (walk ++ others) = loadsOf walk ++ loadsOf others := List.filterMap_append

private theorem loadsOf_leaves (hs : List Head) :
    loadsOf (Walk.operators.items () (hs.map leaf)) = hs.filterMap Head.load? := by
  rw [Walk.operators_leaves, loadsOf, List.filterMap_map]
  rfl

end Operator

/-- The events `es` account for the way from `s` to `s'`, on which blocks are opened at the given depths,
and left again, and the given loads are appended. -/
structure Accounts (s : State) (es : List Event) (s' : State) (depths : List Nat)
    (loads : List (Option Attr × List ValueId)) : Prop where
  nesting : s'.nesting = s.nesting
  length : s'.blocks.length = s.blocks.length + depths.length
  entries : es.filterMap Event.entry? = depths.zipIdx s.blocks.length
  exits : (es.filterMap Event.exit?).Perm (List.range' s.blocks.length depths.length)
  bracketed : ∀ opened, Event.followAll opened es = some opened
  loads : es.filterMap Event.load? = loads
  -- What a block gains that is not open any more are the stores of promoted variables.
  closed : ∀ b < s.blocks.length, b ∉ s.nesting →
    s'.blocks.count b = s.blocks.count b + promotions b es
  left : ∀ before b n after, es = before ++ .left b n :: after →
    s'.blocks.count b = n + promotions b after

private theorem split_append {es es' before after : List Event} {e : Event}
    (h : es ++ es' = before ++ e :: after) :
    (∃ mid, es = before ++ e :: mid ∧ after = mid ++ es') ∨
      ∃ mid, before = es ++ mid ∧ es' = mid ++ e :: after := by
  rcases List.append_eq_append_iff.mp h with ⟨mid, hbefore, hes'⟩ | ⟨mid, hes, hafter⟩
  · exact .inr ⟨mid, hbefore, hes'⟩
  · cases mid with
    | nil => exact .inr ⟨[], by simpa using hes.symm, by simpa using hafter.symm⟩
    | cons e' mid =>
      rw [List.cons_append, List.cons.injEq] at hafter
      obtain ⟨rfl, rfl⟩ := hafter
      exact .inl ⟨mid, hes, rfl⟩

namespace Accounts

variable {s t u : State} {es es' : List Event} {depths depths' : List Nat}
  {loads loads' : List (Option Attr × List ValueId)}

/-- A block that is left has been opened on the same way. -/
theorem opened_of_left (h : Accounts s es t depths loads) {before after : List Event} {b n : Nat}
    (heq : es = before ++ .left b n :: after) : s.blocks.length ≤ b ∧ b < t.blocks.length := by
  have hexit : b ∈ es.filterMap Event.exit? := List.mem_filterMap.mpr ⟨.left b n, by simp [heq], rfl⟩
  have hrange := h.exits.subset hexit
  rw [List.mem_range'_1] at hrange
  rwa [h.length]

theorem trans (first : Accounts s es t depths loads) (second : Accounts t es' u depths' loads')
    (opened : ∀ b ∈ s.nesting, b < s.blocks.length) :
    Accounts s (es ++ es') u (depths ++ depths') (loads ++ loads') where
  nesting := second.nesting.trans first.nesting
  length := by rw [second.length, first.length, List.length_append, Nat.add_assoc]
  entries := by
    rw [List.filterMap_append, first.entries, second.entries, first.length, List.zipIdx_append]
  exits := by
    rw [List.filterMap_append, List.length_append, ← List.range'_append_1, ← first.length]
    exact first.exits.append second.exits
  bracketed opened := by
    rw [Event.followAll_append, first.bracketed, Option.bind_some, second.bracketed]
  loads := by rw [List.filterMap_append, first.loads, second.loads]
  closed b hb hclosed := by
    rw [second.closed b (by rw [first.length]; omega) (by rwa [first.nesting]), first.closed b hb hclosed,
      promotions_append, Nat.add_assoc]
  left before b n after heq := by
    rcases split_append heq with ⟨mid, rfl, rfl⟩ | ⟨mid, rfl, rfl⟩
    · obtain ⟨hlow, hhigh⟩ := first.opened_of_left rfl
      have hclosed : b ∉ t.nesting := by
        rw [first.nesting]
        intro hmem
        have := opened b hmem
        omega
      rw [second.closed b hhigh hclosed, first.left before b n mid rfl, promotions_append, Nat.add_assoc]
    · exact second.left mid b n after rfl

private theorem still (nesting : t.nesting = s.nesting) (length : t.blocks.length = s.blocks.length)
    (plain : ∀ e ∈ es, e.isBracket = false)
    (closed : ∀ b < s.blocks.length, b ∉ s.nesting →
      t.blocks.count b = s.blocks.count b + promotions b es) :
    Accounts s es t [] (es.filterMap Event.load?) where
  nesting := nesting
  length := length
  entries := List.filterMap_eq_nil_iff.mpr fun e he => (Event.follow_of_not_isBracket (plain e he)).1
  exits := .of_eq (List.filterMap_eq_nil_iff.mpr fun e he => (Event.follow_of_not_isBracket (plain e he)).2.1)
  bracketed opened := by
    clear closed
    induction es with
    | nil => rfl
    | cons e es ih =>
      rw [Event.followAll, (Event.follow_of_not_isBracket (plain e List.mem_cons_self)).2.2 opened,
        Option.bind_some]
      exact ih fun e' he' => plain e' (List.mem_cons_of_mem _ he')
  loads := rfl
  closed := closed
  left before b n after heq := by
    have hplain := plain (.left b n) (by rw [heq]; simp)
    simp [Event.isBracket] at hplain

private theorem region (inner : Accounts s.enter es t depths loads)
    (leave : t.leave? s.blocks.length = some u) :
    Accounts s (.entered s.blocks.length (s.nesting.length + 1) ::
        (es ++ [.left s.blocks.length (t.blocks.count s.blocks.length)])) u
      ((s.nesting.length + 1) :: depths) loads := by
  have left := State.left_of_leave? leave
  have hnesting : t.nesting = s.blocks.length :: s.nesting := inner.nesting
  have hlength : s.enter.blocks.length = s.blocks.length + 1 := Blocks.length_extend _
  have hcount : ∀ b, s.enter.blocks.count b = s.blocks.count b := fun b =>
    congrArg List.length (Blocks.contents_extend s.blocks b)
  refine ⟨?_, ?_, ?_, ?_, ?_, ?_, ?_, ?_⟩
  · have hboth := left.nesting
    rw [hnesting, List.cons.injEq] at hboth
    exact hboth.2.symm
  · rw [left.blocks, inner.length, hlength, List.length_cons]
    omega
  · simp [Event.entry?, inner.entries, hlength, List.zipIdx_cons]
  · rw [List.length_cons, List.range'_succ, ← hlength, List.filterMap_cons_none rfl, List.filterMap_append]
    exact List.perm_append_comm.trans (inner.exits.cons s.blocks.length)
  · intro opened
    rw [Event.followAll, Event.follow, Option.bind_some, Event.followAll_append, inner.bracketed]
    simp [Event.followAll, Event.follow]
  · rw [List.filterMap_cons_none rfl, List.filterMap_append, inner.loads]
    exact List.append_nil loads
  · intro b hb hclosed
    have hne : b ≠ s.blocks.length := by omega
    rw [left.blocks, inner.closed b (by omega) (by simp [State.enter, State.record, hne, hclosed]), hcount]
    simp [promotions, Event.promotes]
  · intro before b n after heq
    cases before with
    | nil => simp at heq
    | cons e before =>
      rw [List.cons_append, List.cons.injEq] at heq
      rw [left.blocks]
      rcases split_append heq.2 with ⟨mid, hes, rfl⟩ | ⟨mid, -, hlast⟩
      · rw [inner.left before b n mid hes]
        simp [promotions, Event.promotes]
      · cases mid with
        | nil =>
          simp only [List.nil_append, List.cons.injEq, Event.left.injEq] at hlast
          obtain ⟨⟨rfl, rfl⟩, rfl⟩ := hlast
          rfl
        | cons e' mid => simp at hlast

end Accounts

/-- The journal accounts for the way from `s` to `s'`. -/
def State.Reports (s s' : State) (depths : List Nat) (loads : List (Option Attr × List ValueId)) : Prop :=
  ∃ es, s'.journal = s.journal ++ es ∧ Accounts s es s' depths loads

namespace State.Reports

variable {s t u : State} {depths depths' : List Nat} {loads loads' : List (Option Attr × List ValueId)}

theorem trans (first : s.Reports t depths loads) (second : t.Reports u depths' loads')
    (opened : ∀ b ∈ s.nesting, b < s.blocks.length) :
    s.Reports u (depths ++ depths') (loads ++ loads') := by
  obtain ⟨es, hes, haccounts⟩ := first
  obtain ⟨es', hes', haccounts'⟩ := second
  exact ⟨es ++ es', by rw [hes', hes, List.append_assoc], haccounts.trans haccounts' opened⟩

private theorem quiet (journal : t.journal = s.journal) (nesting : t.nesting = s.nesting)
    (blocks : t.blocks = s.blocks) : s.Reports t [] [] :=
  ⟨[], by simp [journal], .still nesting (by rw [blocks]) (by simp) fun b _ _ => by rw [blocks]; rfl⟩

private theorem emit (inside : s.current ∈ s.nesting) (op : Staged) : s.Reports (s.emit op) [] [] := by
  refine ⟨[], (List.append_nil _).symm, .still rfl (Blocks.length_emit _ _ _) (by simp) ?_⟩
  intro b _ hclosed
  have hne : b ≠ s.current := fun h => hclosed (h ▸ inside)
  exact congrArg List.length (Blocks.contents_emit_of_ne s.blocks s.current b op hne)

private theorem region (inner : s.enter.Reports t depths loads)
    (leave : t.leave? s.blocks.length = some u) :
    s.Reports u ((s.nesting.length + 1) :: depths) loads := by
  obtain ⟨es, hes, haccounts⟩ := inner
  refine ⟨_, ?_, haccounts.region leave⟩
  have hjournal : u.journal = t.journal ++ [.left s.blocks.length (t.blocks.count s.blocks.length)] := by
    have hleave := leave
    simp only [State.leave?, (State.left_of_leave? leave).nesting, if_true, Option.some.injEq] at hleave
    rw [← hleave]
    rfl
  rw [hjournal, hes, List.append_assoc]
  simp [State.enter, State.record]

end State.Reports

private theorem Head.Computes.load?_withResult {h : Head} (computes : h.Computes) (value : ValueId)
    (ty : Ty) :
    (h.withResult value ty).load? = none := by
  have hname := computes.name
  simp only [computing, List.mem_cons, List.not_mem_nil, or_false] at hname
  rw [Head.load?, if_neg]
  rcases hname with h | h | h | h | h | h <;> simp [Head.opcode, computes.dialect, Dialect.text, h]

private theorem Flat.journal {s t : State} {reads : List String} {hs : List Head} {pool : List ValueId}
    (flat : Flat s reads hs pool t) :
    ∃ es, t.journal = s.journal ++ es ∧ (∀ e ∈ es, e.isBracket = false) ∧
      (∀ b, promotions b es = 0) ∧ es.filterMap Event.load? = hs.filterMap Head.load? := by
  induction flat with
  | start => exact ⟨[], by simp [promotions]⟩
  | @load reads hs pool t name flat home ih =>
    obtain ⟨es, hes, hplain, hnone, hloads⟩ := ih
    refine ⟨es ++ [.loaded name (.versioned name t.counter)], ?_, ?_, ?_, ?_⟩
    · rw [State.read_memory home, ← List.append_assoc, ← hes]
      rfl
    · rw [List.forall_mem_append, List.forall_mem_singleton]
      exact ⟨hplain, rfl⟩
    · intro b
      rw [promotions_append, hnone b]
      rfl
    · simp [hloads, Event.load?, Head.load?, loadHead, Head.opcode, Dialect.text, Head.withResult]
  | value flat home ih => exact ih
  | @op reads hs pool t h ty flat computes known ih =>
    obtain ⟨es, hes, hplain, hnone, hloads⟩ := ih
    refine ⟨es, hes, hplain, hnone, ?_⟩
    simp [hloads, computes.load?_withResult]
  | drop flat known used ih => exact ih

private theorem Flat.reports {s t : State} {reads : List String} {hs : List Head} {pool : List ValueId}
    (flat : Flat s reads hs pool t) (inside : s.current ∈ s.nesting) :
    s.Reports t [] (hs.filterMap Head.load?) := by
  have happ := flat.appended
  obtain ⟨es, hes, hplain, hnone, hloads⟩ := flat.journal
  refine ⟨es, hes, ?_⟩
  rw [← hloads]
  refine .still happ.nesting happ.length_blocks hplain fun b _ hclosed => ?_
  have hne : b ≠ s.current := fun h => hclosed (h ▸ inside)
  rw [Blocks.count, happ.contents_of_ne hne, hnone]
  rfl

namespace State

variable {s : State} (name : String)

private theorem promoteToMemory_reports {block : Nat} {value : ValueId}
    (home : s.home name = .pending block value)
    (isOpen : block < s.blocks.length) : s.Reports (s.promoteToMemory name) [] [] := by
  rw [promoteToMemory_of_pending s name home]
  refine ⟨[.promoting name value block], rfl, ?_⟩
  refine .still rfl (Blocks.length_emit _ _ _) (by simp [Event.isBracket]) fun b _ _ => ?_
  have hblocks :
      ((s.updateScope (·.promote name)).record (.promoting name value block)).blocks = s.blocks := rfl
  rw [Blocks.count, emitInto, hblocks]
  by_cases hb : b = block
  · subst hb
    rw [Blocks.contents_emit_self _ _ _ isOpen]
    simp [promotions, Event.promotes, Blocks.count]
  · rw [Blocks.contents_emit_of_ne _ _ _ _ hb]
    simp [promotions, Event.promotes, Blocks.count, Ne.symm hb]

private theorem writeThrough_reports (pending : ∀ a b v, s.home a = .pending b v → b < s.blocks.length) :
    s.Reports (s.writeThrough name) [] [] := by
  cases home : s.home name with
  | undefined =>
    rw [writeThrough_of_undefined s name home, markMemory]
    split
    · exact .quiet rfl rfl rfl
    · exact ⟨[.movedToMemory name], rfl, .still rfl rfl (by simp [Event.isBracket]) fun _ _ _ => rfl⟩
  | pending block value =>
    rw [writeThrough_of_pending s name home]
    exact promoteToMemory_reports name home (pending name block value home)
  | memory =>
    rw [writeThrough_of_memory s name home]
    exact .quiet rfl rfl rfl

private theorem journal_freshDefinition (s : State) :
    (s.freshDefinition name).2.journal = s.journal := by
  unfold freshDefinition
  dsimp only
  split <;> rfl

private theorem journal_declareIfAny (s : State) (declared : Option Ty) :
    (s.declareIfAny name declared).journal = s.journal := by
  cases declared <;> rfl

private theorem journal_definitionTy (s : State) (ty : Ty) (declared : Option Ty) :
    (s.definitionTy name ty declared).2.journal = s.journal := by
  unfold definitionTy
  split
  · rfl
  · split
    · rfl
    · dsimp only
      split <;> rfl

private theorem declareIfAny_reports (s : State) (declared : Option Ty) :
    s.Reports (s.declareIfAny name declared) [] [] := by
  have same : Alike s (s.declareIfAny name declared) := .declareIfAny name declared
  exact .quiet (journal_declareIfAny name s declared) same.nesting same.blocks

private theorem assign_reports (placed : s.Placed) (x : Operand) (declared : Option Ty) :
    s.Reports (s.assign name x declared).2 [] [] := by
  cases home : s.home name with
  | undefined =>
    have same : Alike s (s.definitionTy name x.2 declared).2 := .definitionTy name x.2 declared
    obtain ⟨-, frame, blocks, -⟩ :=
      freshDefinition_define (s.definitionTy name x.2 declared).2 name s.current
    rw [assign_of_undefined s name x declared home]
    refine .quiet ?_ (frame.nesting.trans same.nesting) (blocks.trans same.blocks)
    exact (journal_freshDefinition name _).trans (journal_definitionTy name s x.2 declared)
  | pending block value =>
    simp only [assign, home]
    have hpromoted := promoteToMemory_reports name home (placed.pending name block value home)
    exact hpromoted.trans (declareIfAny_reports name _ declared) placed.nesting
  | memory =>
    simp only [assign, home]
    exact declareIfAny_reports name s declared

end State

/-- How a simple statement ends, once its operands are there. -/
inductive Concludes (m : State) : State → Prop
  | plain : Concludes m m
  | assign (name : String) (x : Operand) (declared : Option Ty) : Concludes m (m.assign name x declared).2
  | through (name : String) : Concludes m (m.writeThrough name)

namespace Concludes

variable {m t : State}

private theorem reports (h : Concludes m t) (placed : m.Placed) : m.Reports t [] [] := by
  cases h with
  | plain => exact .quiet rfl rfl rfl
  | assign name x declared => exact State.assign_reports name placed x declared
  | through name => exact State.writeThrough_reports name placed.pending

private theorem stored (h : Concludes m t) {b : Nat} (hb : b < m.blocks.length) :
    ∃ ls : List Late, t.blocks.contents b = m.blocks.contents b ++ ls.map Late.staged := by
  have hwrite : ∀ {name r}, Write m name r t →
      ∃ ls : List Late, t.blocks.contents b = m.blocks.contents b ++ ls.map Late.staged := by
    intro name r write
    obtain ⟨ls, hls, -⟩ := write.stored hb
    exact ⟨ls, hls⟩
  cases h with
  | plain => exact ⟨[], by simp⟩
  | assign name x declared =>
    obtain ⟨_, _, _, _, write⟩ | ⟨_, _, write⟩ := m.write_assign name x declared
    · exact hwrite write
    · exact hwrite write
  | through name => exact hwrite (m.write_writeThrough name)

end Concludes

private theorem Simple.concludes {s t : State} {st : Stmt} {own : Head} (one : Simple s st own t) :
    ∃ s₀ es xs m, Alike s s₀ ∧ s₀.journal = s.journal ∧ Runs (Lower.operands es) s₀ xs m ∧ Concludes m t := by
  cases one with
  | ret run => exact ⟨s, _, _, t, .refl s, rfl, run, .plain⟩
  | expr run => exact ⟨s, _, _, t, .refl s, rfl, Lower.runs_operands_singleton run, .plain⟩
  | pass => exact ⟨s, _, _, s, .refl s, rfl, Lower.runs_operands_nil, .plain⟩
  | breakLoop => exact ⟨s, _, _, s, .refl s, rfl, Lower.runs_operands_nil, .plain⟩
  | continueLoop => exact ⟨s, _, _, s, .refl s, rfl, Lower.runs_operands_nil, .plain⟩
  | @declare _ target annot _ _ _ _ _ run =>
    refine ⟨_, _, _, t, .declareTarget target annot, ?_, run, .plain⟩
    unfold State.declareTarget
    split <;> rfl
  | @assign m _ _ _ _ _ run =>
    exact ⟨s, _, _, m, .refl s, rfl, Lower.runs_operands_singleton run, .assign _ _ _⟩
  | @annotate m _ _ _ _ _ _ _ _ run =>
    exact ⟨s, _, _, m, .refl s, rfl, Lower.runs_operands_singleton run, .assign _ _ _⟩
  | @augAssign m _ _ _ _ _ _ run =>
    exact ⟨s, _, _, m, .refl s, rfl, Lower.runs_operands_singleton run, .through _⟩

private theorem Late.filterMap_load? (ls : List Late) :
    (ls.map Late.head).filterMap Head.load? = [] := by
  refine List.filterMap_eq_nil_iff.mpr fun h hh => ?_
  obtain ⟨l, -, rfl⟩ := List.mem_map.mp hh
  simp [Late.head, storeHead, Head.load?, Head.opcode, Dialect.text]

private theorem Head.load?_of_not_operand {h : Head} (hother : h.opcode ∉ operandOpcodes) :
    h.load? = none := by
  rw [Head.load?, if_neg]
  rintro hload
  exact hother (by simp [hload, operandOpcodes])

private theorem Simple.reports {s t : State} {st : Stmt} {own : Head} {hs : List Head}
    (one : Simple s st own t)
    (placed : s.Placed) (gains : Gains s t hs) : s.Reports t [] (hs.filterMap Head.load?) := by
  obtain ⟨s₀, es, xs, m, same, hjournal, run, concludes⟩ := one.concludes
  obtain ⟨ks, flat⟩ := Lower.flat_of_operands run
  have happ := flat.appended
  have placed₀ : s₀.Placed := placed.sameVars same.toSameVars
  have hcurrent : m.current = s.current := happ.current.trans same.current
  obtain ⟨ls, hls⟩ := concludes.stored (show s.current < m.blocks.length by
    rw [happ.length_blocks, same.blocks]
    exact placed.current_lt)
  have hline := happ.contents_current placed₀.current_lt
  rw [same.current, same.blocks] at hline
  have gains' : Gains s t (ks ++ ls.map Late.head) := by
    rw [Gains, hls, hline, Late.map_staged, List.map_append, List.append_assoc]
  rw [gains.unique gains', List.filterMap_append, Late.filterMap_load?]
  have hstart : s.Reports s₀ [] [] := .quiet hjournal same.nesting same.blocks
  have hline : s₀.Reports m [] (ks.filterMap Head.load?) := flat.reports placed₀.current_mem
  exact (hstart.trans hline placed.nesting).trans
    (concludes.reports (placed₀.extension happ.extension)) placed.nesting

private theorem YieldRegion.reports {s t u : State} {e : Expr} {x : Operand} {hs : List Head}
    (region : YieldRegion s e x u t) (flat : Flat s.enter e.reads hs [x.1] u) (placed : s.Placed) :
    s.Reports t ((Walk.nested.regions (s.nesting.length + 1) [yieldRegion hs x]).map Prod.fst)
      (loadsOf (Walk.operators.regions () [yieldRegion hs x])) := by
  have hline := flat.reports placed.enter.current_mem
  have hinside : u.current ∈ u.nesting := by
    rw [flat.appended.current, flat.appended.nesting]
    exact placed.enter.current_mem
  have hinner := hline.trans (.emit hinside (.ofHead (yieldHead x))) placed.enter.nesting
  have hyield : (yieldHead x).load? = none := by
    simp [yieldHead, Head.load?, Head.opcode, Dialect.text]
  have hloads : loadsOf (Walk.operators.regions () [yieldRegion hs x]) = hs.filterMap Head.load? ++ [] := by
    rw [yieldRegion, Walk.operators_single, Walk.regions_nil, List.append_nil, loadsOf_leaves,
      List.filterMap_append, List.filterMap_cons_none hyield]
    rfl
  rw [hloads, yieldRegion, Walk.nested_single, Walk.nested_leaves]
  exact hinner.region region.2

private theorem Opens.reports {s t : State} {st : Stmt} {own : Head} {slots : List Slot}
    {bodies : List (List Stmt)} {close : State → State} (opens : Opens s st own slots bodies t close)
    (placed : s.Placed) : ∃ pre hs regions args m, Opening s pre hs slots regions args m ∧
      m.blocks = t.blocks ∧ s.Reports t ((Walk.nested.regions (s.nesting.length + 1) regions).map Prod.fst)
        (hs.filterMap Head.load? ++ loadsOf (Walk.operators.regions () regions)) := by
  cases opens with
  | @branch _ test yes no x _ run =>
    obtain ⟨hs, flat⟩ := Lower.flat_of_operand run
    refine ⟨_, hs, [], [x.1], t, .inline (by simpa using flat), rfl, ?_⟩
    rw [show loadsOf (Walk.operators.regions () []) = [] from rfl, List.append_nil]
    exact flat.reports placed.current_mem
  | whileDo region =>
    obtain ⟨hs, flat⟩ := Lower.flat_of_operand region.1
    exact ⟨_, [], _, _, t, .loop flat region.2 (.inl ⟨rfl, rfl⟩), rfl, region.reports flat placed⟩
  | @forIn v _ name _ _ x _ _ region =>
    obtain ⟨hs, flat⟩ := Lower.flat_of_operand region.1
    refine ⟨_, [], _, _, _, .loop flat region.2 (.inr ⟨name, rfl, v.write_writeThrough name⟩), rfl, ?_⟩
    have hfirst := region.reports flat placed
    have hlast : v.Reports (v.writeThrough name) [] [] := by
      refine State.writeThrough_reports name fun a b w home => ?_
      obtain ⟨hlength, -, hhome⟩ := flat.yields region.2
      rw [hhome] at home
      have := placed.pending a b w home
      omega
    have hboth := hfirst.trans hlast placed.nesting
    rwa [List.append_nil, List.append_nil] at hboth
  | classDef => exact ⟨_, [], [], [], s, .inline .start, rfl, .quiet rfl rfl rfl⟩

private theorem Opens.close_reports {s t : State} {st : Stmt} {own : Head} {slots : List Slot}
    {bodies : List (List Stmt)} {close : State → State} (opens : Opens s st own slots bodies t close)
    (u : State) : u.Reports (close u) [] [] := by
  cases opens <;> exact .quiet rfl rfl rfl

private theorem Lower.journal_bindParams {entry : Nat} {params : List Param} {s t : State}
    {formals : List (ValueId × Ty)} (run : Runs (bindParams entry params) s formals t) :
    t.journal = s.journal := by
  induction params generalizing s formals with
  | nil =>
    simp only [bindParams, runs_pure] at run
    rw [run.2]
  | cons p rest ih =>
    simp only [bindParams, runs_bind, runs_step, runs_pure] at run
    obtain ⟨value, s₁, hbind, more, s₂, hmore, rfl, rfl⟩ := run
    have hstate : ((s.freshDefinition p.name).2.defineIn p.name (s.freshDefinition p.name).1
        entry).declare p.name (annotatedTy? p.annot) = s₁ := congrArg Prod.snd hbind
    rw [ih hmore, ← hstate]
    exact State.journal_freshDefinition p.name s

private theorem nested_step (depth : Nat) (hs : List Head) (own : Head) (regions : List Region)
    (ops : List Operator) : Walk.nested.items depth (hs.map leaf ++ .mk own regions :: ops) =
      Walk.nested.regions depth regions ++ Walk.nested.items depth ops := by
  rw [Walk.nested_append, Walk.nested_leaves, List.nil_append]
  rfl

private theorem loadsOf_step {own : Head} (other : own.load? = none) (hs : List Head)
    (regions : List Region)
    (ops : List Operator) : loadsOf (Walk.operators.items () (hs.map leaf ++ .mk own regions :: ops)) =
      hs.filterMap Head.load? ++ loadsOf (Walk.operators.regions () regions) ++
        loadsOf (Walk.operators.items () ops) := by
  have hown (below : List Operator) : loadsOf (.mk own regions :: below) = loadsOf below :=
    List.filterMap_cons_none other
  rw [Walk.items_append, loadsOf_append, loadsOf_leaves, Walk.operators_cons, walk_mk, List.cons_append,
    hown, loadsOf_append, List.append_assoc]

private theorem State.Reports.step {s w s' : State} {op : Staged} {depths depths' : List Nat}
    {loads loads' : List (Option Attr × List ValueId)} (placed : s.Placed) (own : s.Reports w depths loads)
    (rest : (w.emit op).Reports s' depths' loads') : s.Reports s' (depths ++ depths') (loads ++ loads') := by
  have hinside : w.current ∈ w.nesting := by
    obtain ⟨_, -, haccounts⟩ := own
    rw [State.current, haccounts.nesting]
    exact placed.current_mem
  have hown := own.trans (.emit hinside op) placed.nesting
  rw [List.append_nil, List.append_nil] at hown
  exact hown.trans rest placed.nesting

mutual

/-- What statements grow is what the journal tells of. -/
theorem Grows.reports : ∀ {Z : List String} {s s' : State} {stmts : List Stmt} {ops : List Operator},
    Grows Z s stmts s' ops → s.Placed →
    s.Reports s' ((Walk.nested.items (s.nesting.length + 1) ops).map Prod.fst)
      (loadsOf (Walk.operators.items () ops))
  | _, _, _, _, _, .nil, _ => .quiet rfl rfl rfl
  | _, s, s', _, _, @Grows.simple _ _ t _ st own stmts hs ops one gains rest, placed => by
    have hnext := one.extension.emitted (.ofHead own)
    have hrest := rest.reports (placed.extension hnext)
    rw [hnext.nesting] at hrest
    rw [leaf, nested_step, loadsOf_step (Head.load?_of_not_operand one.notOperand)]
    have hown := one.reports placed gains
    rw [← List.append_nil (hs.filterMap Head.load?)] at hown
    exact .step placed hown hrest
  | _, s, s', _, _, @Grows.compound _ _ t m u _ st own slots more bodies close pre hs regions others
      stmts ls ops opens opened inner retro rest, placed => by
    obtain ⟨_, hs', regions', _, m', opening, hblocks, hopens⟩ := opens.reports placed
    obtain ⟨rfl, rfl⟩ := opened.opening.unique opening placed (by rw [hblocks, opened.start.blocks])
    have hopen := opened.opening.extension
    have hnext := opened.emitted inner.lowers.extension (.ofHead own (slots ++ more))
    have hinner := inner.reports ((placed.extension hopen).sameVars opened.start)
    rw [opened.start.nesting, hopen.nesting] at hinner
    have hown := (hopens.trans hinner placed.nesting).trans (opens.close_reports u) placed.nesting
    have hrest := rest.reports (placed.extension hnext)
    rw [hnext.nesting] at hrest
    rw [nested_step, loadsOf_step (Head.load?_of_not_operand opens.notOperand), List.filterMap_append,
      Late.filterMap_load?, List.append_nil, Walk.regions_append, Walk.regions_append, loadsOf_append,
      ← List.append_assoc (hs.filterMap Head.load?), List.map_append, List.map_append]
    rw [List.append_nil, List.append_nil] at hown
    exact .step placed hown hrest
  | _, s, s', _, _, @Grows.function _ _ t u v _ name params body stmts decorators returns span formals inside
      ops accepted bind inner leave rest, placed => by
    have binds := Lower.binds_of_bindParams bind
    have left := State.left_of_leave? leave
    obtain ⟨-, hblocks, -, -, hnesting⟩ := binds.entry
    have hnext := binds.emitted inner.lowers.extension left
      (.ofHead (functionHead name decorators formals (annotatedTy? returns))
        [⟨s.blocks.length, some ⟨entryLabel, formals⟩⟩])
    have hbind : ((s.declare name (annotatedTy? returns)).pushFunction.enter).Reports t [] [] :=
      .quiet (Lower.journal_bindParams bind) hnesting hblocks
    have hinner := inner.reports (binds.placed placed)
    rw [hnesting, List.length_cons] at hinner
    have hregion := (hbind.trans hinner placed.enter.nesting).region leave
    have hstart : s.Reports (s.declare name (annotatedTy? returns)).pushFunction [] [] := .quiet rfl rfl rfl
    have hend : v.Reports v.popFunction [] [] := .quiet rfl rfl rfl
    have hown : s.Reports v.popFunction
        ((Walk.nested.regions (s.nesting.length + 1)
          [.single (some ⟨entryLabel, formals⟩) inside]).map Prod.fst)
        (loadsOf (Walk.operators.regions () [.single (some ⟨entryLabel, formals⟩) inside])) := by
      have hall := (hstart.trans hregion placed.nesting).trans hend placed.nesting
      rw [List.append_nil, List.append_nil] at hall
      rw [Walk.nested_single, Walk.regions_nil, Walk.operators_single, Walk.regions_nil, List.append_nil,
        List.append_nil]
      exact hall
    have hrest := rest.reports (placed.extension hnext)
    rw [hnext.nesting] at hrest
    have hother : (functionHead name decorators formals (annotatedTy? returns)).load? = none := by
      obtain ⟨hdialect, hname⟩ := functionHead_opcode name decorators formals (annotatedTy? returns)
      simp [Head.load?, Head.opcode, hdialect, hname, Dialect.text]
    have hregions := nested_step (s.nesting.length + 1) []
      (functionHead name decorators formals (annotatedTy? returns))
      [.single (some ⟨entryLabel, formals⟩) inside] ops
    have hloads := loadsOf_step hother [] [.single (some ⟨entryLabel, formals⟩) inside] ops
    rw [List.map_nil, List.nil_append] at hregions hloads
    rw [hregions, hloads, List.map_append]
    exact .step placed hown hrest

theorem GrowsBodies.reports : ∀ {Z : List String} {s s' : State} {bodies : List (List Stmt)}
    {slots : List Slot} {regions : List Region}, GrowsBodies Z s bodies slots s' regions → s.Placed →
    s.Reports s' ((Walk.nested.regions (s.nesting.length + 1) regions).map Prod.fst)
      (loadsOf (Walk.operators.regions () regions))
  | _, _, _, _, _, _, .nil, _ => .quiet rfl rfl rfl
  | _, s, s', _, _, _, @GrowsBodies.cons _ _ t u _ stmts bodies slots ops ls regions inner leave late rest,
      placed => by
    have left := State.left_of_leave? leave
    have hext := inner.lowers.extension.region left
    have hinner := (inner.reports placed.enter).region leave
    have hrest := rest.reports (placed.extension (hext.weaken _))
    rw [hext.nesting] at hrest
    have hall := hinner.trans hrest placed.nesting
    rw [Walk.nested_single, Walk.nested_append, Walk.nested_leaves, List.append_nil,
      Walk.operators_single, Walk.items_append, loadsOf_append, loadsOf_append, loadsOf_leaves,
      Late.filterMap_load?, List.append_nil, List.map_cons, List.map_append]
    exact hall

end

end RegionIR
