import RegionIR.Proofs.Correspondence
import RegionIR.Proofs.History
/-!
# The shape of a tree

An opcode tells how many results, operands and regions an operator has. Every region is one block, only
the entry block of a function has a label, and a loop computes in its first region what it runs over, with
a `yield` at the end. The operators of a tree have this shape because each of them has it when it is
appended, and nothing is appended behind a `yield`.
-/
namespace RegionIR

open Lower (Runs)

namespace Head

/-- Expressions, loads and first definitions have one result, and no other operator has any. -/
def resultCount (h : Head) : Nat :=
  if h.opcode ∈ operandOpcodes ++ ["py.assign", "py.cast"] then 1 else 0

def AllowsArgs (h : Head) (n : Nat) : Prop :=
  if h.opcode ∈ ["py.binOp", "py.boolOp", "py.compare"] then n = 2
  else if h.opcode ∈ ["py.unaryOp", "py.assign", "py.cast", "py.store", "py.augAssign", "py.if", "py.expr",
    "py.yield"] then n = 1
  else if h.opcode ∈ ["py.return", "py.annAssign"] then n ≤ 1
  else if h.opcode = "py.call" then True
  else n = 0

def AllowsRegions (h : Head) (n : Nat) : Prop :=
  if h.opcode ∈ ["builtin.module", "builtin.func", "py.class"] then n = 1
  else if h.opcode = "py.if" then n = 1 ∨ n = 2
  else if h.opcode ∈ ["py.for", "py.while"] then n = 2
  else n = 0

/-- The names and types on an operator's own line are as many as its opcode asks for. -/
structure Shaped (h : Head) : Prop where
  argTypes : h.args.length = h.argTypes.length
  resultTypes : h.results.length = h.resultTypes.length
  results : h.results.length = h.resultCount
  args : h.AllowsArgs h.args.length

end Head

structure Staged.Shaped (staged : Staged) : Prop where
  regions : staged.op.regions = []
  head : staged.op.head.Shaped
  slots : staged.op.head.AllowsRegions staged.slots.length
  labels : ∀ slot ∈ staged.slots, staged.op.head.Labels slot.label

private theorem Staged.shaped_ofHead {h : Head} (head : h.Shaped) (regions : h.AllowsRegions 0) :
    (Staged.ofHead h).Shaped :=
  ⟨rfl, head, regions, by simp [Staged.ofHead]⟩

private theorem operandHead_shaped {h : Head} (opcode : h.opcode ∈ operandOpcodes)
    (types : h.args.length = h.argTypes.length) (args : h.AllowsArgs h.args.length) (value : ValueId)
    (ty : Ty) : (Staged.ofHead (h.withResult value ty)).Shaped := by
  have hopcode : (h.withResult value ty).opcode = h.opcode := rfl
  refine Staged.shaped_ofHead ⟨types, rfl, ?_, ?_⟩ ?_
  · simp [Head.resultCount, hopcode, opcode]
  · rw [Head.AllowsArgs, hopcode]
    exact args
  · rw [Head.AllowsRegions, hopcode]
    simp only [operandOpcodes, List.mem_cons, List.not_mem_nil, or_false] at opcode
    rcases opcode with h | h | h | h | h | h | h <;> simp [h]

private theorem loadHead_shaped (name : String) (value : ValueId) (ty : Ty) :
    (Staged.ofHead (loadHead name value ty)).Shaped := by
  refine operandHead_shaped ?_ rfl ?_ value ty
  · simp [Head.opcode, Dialect.text, operandOpcodes]
  · simp [Head.AllowsArgs, Head.opcode, Dialect.text]

private theorem storeHead_shaped (name : String) (value : ValueId) (ty : Ty) :
    (Staged.ofHead (storeHead name value ty)).Shaped := by
  refine Staged.shaped_ofHead ⟨rfl, rfl, ?_, ?_⟩ ?_
  · simp [Head.resultCount, Head.opcode, storeHead, Dialect.text, operandOpcodes]
  · simp [Head.AllowsArgs, Head.opcode, storeHead, Dialect.text]
  · simp [Head.AllowsRegions, Head.opcode, storeHead, Dialect.text]

private theorem definitionHead_shaped (x : Operand) (value : ValueId) (ty : Ty) (declared : Option Ty) :
    (Staged.ofHead (((Head.py (if declared.isSome then "cast" else "assign")).withArgs [x]).withResult
      value ty)).Shaped := by
  refine Staged.shaped_ofHead ⟨rfl, rfl, ?_, ?_⟩ ?_
  · cases declared <;> simp [Head.resultCount, Head.opcode, Dialect.text]
  · cases declared <;> simp [Head.AllowsArgs, Head.opcode, Dialect.text]
  · cases declared <;> simp [Head.AllowsRegions, Head.opcode, Dialect.text]

/-- The operators of statements that define nothing, with the numbers of operands and regions that they
are built with. -/
private def statementKinds : List (String × Nat × Nat) :=
  [("class", 0, 1), ("return", 0, 0), ("return", 1, 0), ("augAssign", 1, 0), ("annAssign", 0, 0),
    ("annAssign", 1, 0), ("for", 0, 2), ("while", 0, 2), ("if", 1, 1), ("if", 1, 2), ("expr", 1, 0),
    ("pass", 0, 0), ("break", 0, 0), ("continue", 0, 0), ("yield", 1, 0)]

private theorem statementKinds_allowed : ∀ k ∈ statementKinds, (Head.py k.1).resultCount = 0 ∧
    (Head.py k.1).AllowsArgs k.2.1 ∧ (Head.py k.1).AllowsRegions k.2.2 := by
  simp [statementKinds, Head.resultCount, Head.AllowsArgs, Head.AllowsRegions, Head.opcode, Dialect.text,
    operandOpcodes]

private theorem statementHead_shaped {h : Head} {slots : List Slot} (dialect : h.dialect = .py)
    (results : h.results = []) (resultTypes : h.resultTypes = [])
    (types : h.args.length = h.argTypes.length)
    (kind : (h.name, h.args.length, slots.length) ∈ statementKinds)
    (labels : ∀ slot ∈ slots, slot.label = none) : (Staged.ofHead h slots).Shaped := by
  have hopcode : (Staged.ofHead h slots).op.head.opcode = (Head.py h.name).opcode := by
    rw [show (Staged.ofHead h slots).op.head = h from rfl, Head.opcode, dialect]
    rfl
  obtain ⟨hnone, hargs, hregions⟩ := statementKinds_allowed _ kind
  refine ⟨rfl, ⟨types, ?_, ?_, ?_⟩, ?_, ?_⟩
  · rw [show (Staged.ofHead h slots).op.head = h from rfl, results, resultTypes]
    rfl
  · rw [Head.resultCount, hopcode]
    rw [Head.resultCount] at hnone
    rw [hnone, show (Staged.ofHead h slots).op.head = h from rfl, results]
    rfl
  · rw [Head.AllowsArgs, hopcode]
    exact hargs
  · rw [Head.AllowsRegions, hopcode]
    exact hregions
  · intro slot hslot
    rw [labels slot hslot]
    exact Head.labels_none dialect

private theorem functionHead_shaped (name : String) (decorators : List Expr)
    (formals : List (ValueId × Ty)) (result : Ty) (entry : Nat) :
    (Staged.ofHead (functionHead name decorators formals result)
      [⟨entry, some ⟨entryLabel, formals⟩⟩]).Shaped := by
  obtain ⟨hopcode, hlabels⟩ := functionHead_labels name decorators formals result
  have htypes : (functionHead name decorators formals result).argTypes = [] ∧
      (functionHead name decorators formals result).resultTypes = [] := by
    unfold functionHead
    dsimp only
    split <;> exact ⟨rfl, rfl⟩
  refine ⟨rfl, ⟨?_, ?_, ?_, ?_⟩, ?_, ?_⟩
  · simp [Staged.ofHead, Operator.head, htypes]
  · simp [Staged.ofHead, Operator.head, htypes]
  · simp [Staged.ofHead, Operator.head, Head.resultCount, hopcode, operandOpcodes]
  · simp [Staged.ofHead, Operator.head, Head.AllowsArgs, hopcode]
  · simp [Staged.ofHead, Operator.head, Head.AllowsRegions, hopcode]
  · intro slot hslot
    rw [List.mem_singleton.mp hslot]
    exact hlabels

namespace Lower

private theorem emits_read (name : String) : Emits Staged.Shaped (read name) fun _ => True := by
  refine .step fun s housed => ?_
  by_cases hs : s.home name = .memory
  · have hop := loadHead_shaped name (.versioned name s.counter) (s.typeOf name)
    refine ⟨?_, trivial, .inr ⟨s.current, _, housed.current_lt, hop, fun bs => ?_⟩⟩
    · rw [State.read_memory hs]
      exact housed.frame ⟨rfl, rfl, rfl⟩ (Blocks.length_emit _ _ _) housed.pending
    · rw [State.read_memory (s := { s with blocks := bs }) hs]
      rfl
  · refine ⟨?_, trivial, .inl fun bs => ?_⟩
    · rw [State.read_of_ne_memory hs]
      exact housed
    · rw [State.read_of_ne_memory (s := { s with blocks := bs }) hs]

private theorem emits_emitResult {h : Head} {ty : Ty}
    (shaped : ∀ v, (Staged.ofHead (h.withResult v ty)).Shaped) :
    Emits Staged.Shaped (emitResult h ty) fun _ => True :=
  .step fun s housed => ⟨housed.frame ⟨rfl, rfl, rfl⟩ (Blocks.length_emit _ _ _) housed.pending, trivial,
    .inr ⟨s.current, _, housed.current_lt, shaped (.numbered s.counter), fun _ => rfl⟩⟩

private theorem blocks_promoteToMemory {s : State} {name : String} {block : Nat} {value : ValueId}
    (h : s.home name = .pending block value) (bs : Blocks) :
    (State.promoteToMemory { s with blocks := bs } name).blocks =
      bs.emit block (.ofHead (storeHead name value (s.typeOf name))) := by
  rw [State.promoteToMemory_of_pending { s with blocks := bs } name h]
  rfl

private theorem emits_writeThrough (name : String) :
    Emits Staged.Shaped (modify (·.writeThrough name) : Lower PUnit) fun _ => True := by
  refine .step fun s housed => ⟨housed.write (s.write_writeThrough name), trivial, ?_⟩
  cases hs : s.home name with
  | undefined =>
    refine .inl fun bs => ?_
    show (State.writeThrough { s with blocks := bs } name).blocks = bs
    rw [State.writeThrough_of_undefined { s with blocks := bs } name hs, State.markMemory]
    split <;> rfl
  | pending block value =>
    refine .inr ⟨block, .ofHead (storeHead name value (s.typeOf name)),
      housed.pending name block value hs, storeHead_shaped name value _, fun bs => ?_⟩
    show (State.writeThrough { s with blocks := bs } name).blocks = _
    rw [State.writeThrough_of_pending { s with blocks := bs } name hs]
    exact blocks_promoteToMemory hs bs
  | memory =>
    refine .inl fun bs => ?_
    show (State.writeThrough { s with blocks := bs } name).blocks = bs
    rw [State.writeThrough_of_memory { s with blocks := bs } name hs]

private theorem emits_assign (name : String) (x : Operand) (declared : Option Ty) :
    Emits Staged.Shaped (step (·.assign name x declared)) fun h => (Staged.ofHead h).Shaped := by
  refine .step fun s housed => ?_
  have hown : (s.assign name x declared).2.Housed ∧ (Staged.ofHead (s.assign name x declared).1).Shaped := by
    obtain ⟨value, ty, -, hown, write⟩ | ⟨-, hown, write⟩ := s.write_assign name x declared
    · exact ⟨housed.write write, by rw [hown]; exact definitionHead_shaped x value ty declared⟩
    · exact ⟨housed.write write, by rw [hown]; exact storeHead_shaped name x.1 x.2⟩
  refine ⟨hown.1, hown.2, ?_⟩
  cases hs : s.home name with
  | undefined =>
    refine .inl fun bs => ?_
    obtain ⟨_, _, -, -, write⟩ | ⟨known, -⟩ := State.write_assign { s with blocks := bs } name x declared
    · cases write with
      | define frame before blocks => exact blocks
    · exact absurd hs known
  | pending block value =>
    refine .inr ⟨block, .ofHead (storeHead name value (s.typeOf name)),
      housed.pending name block value hs, storeHead_shaped name value _, fun bs => ?_⟩
    have hbs : State.home { s with blocks := bs } name = .pending block value := hs
    simp only [State.assign, hbs]
    rw [(Alike.declareIfAny name declared).blocks]
    exact blocks_promoteToMemory hs bs
  | memory =>
    refine .inl fun bs => ?_
    have hbs : State.home { s with blocks := bs } name = .memory := hs
    simp only [State.assign, hbs]
    exact (Alike.declareIfAny name declared).blocks

private theorem emits_boolHead (op : BoolOperator) (left right : Operand) (ty : Ty) :
    Emits Staged.Shaped (emitResult (boolHead op left right) ty) fun _ => True := by
  refine emits_emitResult fun v => operandHead_shaped ?_ rfl ?_ v ty
  · simp [boolHead, Head.opcode, Dialect.text, operandOpcodes]
  · simp [boolHead, Head.AllowsArgs, Head.opcode, Dialect.text]

private theorem emits_compareHead (op : CmpOperator) (left right : Operand) (ty : Ty) :
    Emits Staged.Shaped (emitResult (compareHead op left right) ty) fun _ => True := by
  refine emits_emitResult fun v => operandHead_shaped ?_ rfl ?_ v ty
  · simp [compareHead, Head.opcode, Dialect.text, operandOpcodes]
  · simp [compareHead, Head.AllowsArgs, Head.opcode, Dialect.text]

private theorem emits_comparePairs : (ops : List CmpOperator) → (xs : List Operand) →
    Emits Staged.Shaped (comparePairs ops xs) fun _ => True
  | _ :: ops, _ :: right :: more =>
    .bind (emits_compareHead _ _ _ _) fun _ _ => .bind (emits_comparePairs ops (right :: more)) fun _ _ =>
      .pure trivial
  | [], _ => .pure trivial
  | _ :: _, [] => .pure trivial
  | _ :: _, [_] => .pure trivial

private theorem emits_conjoin (first : Operand) (rest : List Operand) :
    Emits Staged.Shaped (conjoin first rest) fun _ => True := by
  induction rest generalizing first with
  | nil => exact .pure trivial
  | cons next rest ih => exact .bind (emits_boolHead _ _ _ _) fun x _ => ih x

private theorem emits_ofExcept {α : Type} (r : Except Refusal α) :
    Emits Staged.Shaped (ofExcept r) fun _ => True := by
  cases r with
  | ok a => exact .pure trivial
  | error r => exact .refuse r.construct r.span

mutual

theorem emits_operand : (e : Expr) → Emits Staged.Shaped (operand e) fun _ => True
  | .mk (.name id) _ => emits_read id
  | .mk (.constant value kind) _ => by
    simp only [operand]
    refine emits_emitResult fun v => operandHead_shaped ?_ ?_ ?_ v _
    · cases kind <;> simp [Head.opcode, Dialect.text, operandOpcodes]
    · cases kind <;> rfl
    · cases kind <;> simp [Head.AllowsArgs, Head.opcode, Dialect.text]
  | .mk (.binOp left op right) _ => by
    rw [operand]
    refine .bind (emits_operand left) fun l _ => .bind (emits_operand right) fun r _ => ?_
    refine emits_emitResult fun v => operandHead_shaped ?_ rfl ?_ v _
    · simp [Head.opcode, Dialect.text, operandOpcodes]
    · simp [Head.AllowsArgs, Head.opcode, Dialect.text]
  | .mk (.unaryOp op e) _ => by
    rw [operand]
    refine .bind (emits_operand e) fun x _ => ?_
    refine emits_emitResult fun v => operandHead_shaped ?_ rfl ?_ v _
    · simp [Head.opcode, Dialect.text, operandOpcodes]
    · simp [Head.AllowsArgs, Head.opcode, Dialect.text]
  | .mk (.boolOp _ []) _ => .refuse _ _
  | .mk (.boolOp _ [_]) _ => .refuse _ _
  | .mk (.boolOp op (first :: second :: rest)) _ =>
    .bind (emits_operand first) fun _ _ => .bind (emits_operand second) fun _ _ =>
      .bind (emits_boolHead _ _ _ _) fun ab _ => emits_joinAll op rest ab
  | .mk (.compare left ops comparators) span => by
    rw [operand]
    split
    · exact .refuse _ _
    · refine .bind (emits_operand left) fun first _ => .bind (emits_operands comparators) fun rest _ => ?_
      refine .bind (emits_comparePairs ops (first :: rest)) fun results _ => ?_
      cases results with
      | nil => exact .refuse _ _
      | cons result more => exact emits_conjoin result more
  | .mk (.call func args keywords) _ => by
    rw [operand]
    refine .bind (emits_arguments args) fun values _ => ?_
    let call := ((Head.py "call").withAttr "callee" (.text func.written)).withArgs values
    refine .bind (Q := fun h => h.opcode = "py.call" ∧ h.args.length = h.argTypes.length) ?_ fun h hh => ?_
    · have hcall : call.opcode = "py.call" ∧ call.args.length = call.argTypes.length :=
        ⟨by simp [call, Head.opcode, Dialect.text], by simp [call, Head.withArgs, Head.withAttr, Head.py]⟩
      split
      · exact .pure hcall
      · exact .bind (emits_ofExcept _) fun attrs _ => .pure hcall
    · refine .get (g := callTy func) fun ty => emits_emitResult fun v => ?_
      refine operandHead_shaped ?_ hh.2 ?_ v ty
      · simp [hh.1, operandOpcodes]
      · simp [hh.1, Head.AllowsArgs]
  | .mk (.attr _ _) _ => .refuse _ _
  | .mk (.subscript _ _) _ => .refuse _ _
  | .mk (.starred _) _ => .refuse _ _
  | .mk (.list _) _ => .refuse _ _
  | .mk (.tuple _) _ => .refuse _ _
  | .mk (.index _) _ => .refuse _ _
  | .mk (.bare _) _ => .refuse _ _

theorem emits_joinAll (op : BoolOperator) : (es : List Expr) → (joined : Operand) →
    Emits Staged.Shaped (joinAll op joined es) fun _ => True
  | [], _ => .pure trivial
  | e :: rest, _ => .bind (emits_operand e) fun _ _ => .bind (emits_boolHead _ _ _ _) fun next _ =>
    emits_joinAll op rest next

theorem emits_operands : (es : List Expr) → Emits Staged.Shaped (operands es) fun _ => True
  | [] => .pure trivial
  | e :: rest => .bind (emits_operand e) fun _ _ => .bind (emits_operands rest) fun _ _ => .pure trivial

theorem emits_arguments : (es : List Expr) → Emits Staged.Shaped (arguments es) fun _ => True
  | [] => .pure trivial
  | e :: rest => by
    rw [arguments]
    exact .guard (.bind (emits_operand e) fun _ _ => .bind (emits_arguments rest) fun _ _ => .pure trivial)

end

private theorem emits_declare (name : String) (ty : Ty) :
    Emits Staged.Shaped (modify (·.declare name ty) : Lower PUnit) fun _ => True :=
  .modify (fun _ housed => housed.sameVars ⟨rfl, rfl, rfl, rfl, rfl⟩) fun _ _ => rfl

private theorem emits_targetName (target : Expr) (span : Option Span) (refusal : String → Construct) :
    Emits Staged.Shaped (targetName target span refusal) fun _ => True := by
  unfold targetName
  cases target.name? with
  | none => exact .refuse _ _
  | some name => exact .pure trivial

private theorem emits_singleTarget (targets : List Expr) (span : Option Span) :
    Emits Staged.Shaped (singleTarget targets span) fun _ => True := by
  obtain _ | ⟨target, _ | ⟨_, _⟩⟩ := targets
  · exact .refuse _ _
  · exact emits_targetName target span .assignTarget
  · exact .refuse _ _

private theorem emits_assignment (name : String) (value : Expr) (declared : Option Ty) :
    Emits Staged.Shaped (assignment name value declared) Staged.Shaped :=
  .bind (emits_operand value) fun x _ => .bind (emits_assign name x declared) fun _ h => .pure h

private theorem emits_fieldValue (target annot : Expr) (value : Option Expr) (simple : UInt8) :
    Emits Staged.Shaped (match value with
      | some e => do return .ofHead ((fieldHead target annot simple).withArgs [← operand e])
      | none => return .ofHead (fieldHead target annot simple) : Lower Staged) Staged.Shaped := by
  cases value with
  | none =>
    exact .pure (statementHead_shaped rfl rfl rfl rfl (by simp [statementKinds, fieldHead]) (by simp))
  | some e =>
    exact .bind (emits_operand e) fun x _ =>
      .pure (statementHead_shaped rfl rfl rfl rfl (by simp [statementKinds, fieldHead]) (by simp))

private theorem emits_fieldDeclaration (target annot : Expr) (value : Option Expr) (simple : UInt8) :
    Emits Staged.Shaped (fieldDeclaration target annot value simple) Staged.Shaped := by
  unfold fieldDeclaration
  cases target.name? with
  | none => exact emits_fieldValue target annot value simple
  | some name => exact .bind (emits_declare name _) fun _ _ => emits_fieldValue target annot value simple

private theorem emits_annotated (target annot : Expr) (value : Option Expr) (simple : UInt8)
    (span : Option Span) : Emits Staged.Shaped (annotated target annot value simple span) Staged.Shaped := by
  unfold annotated
  refine .get (g := State.inFunction) (f := fun inFunction => if inFunction then _ else _)
    fun inFunction => ?_
  split
  · refine .bind (emits_targetName target span .annTarget) fun name _ => ?_
    cases value with
    | none => exact emits_fieldDeclaration target annot none simple
    | some e => exact emits_assignment name e _
  · exact emits_fieldDeclaration target annot value simple

private theorem emits_region {x : Lower Unit} (hx : Emits Staged.Shaped x fun _ => True) :
    Emits Staged.Shaped (region x) fun slot => slot.label = none :=
  fun _ housed => .region (hx _ housed.enter)

private theorem emits_exprRegion (e : Expr) :
    Emits Staged.Shaped (exprRegion e) fun slot => slot.label = none := by
  refine emits_region (x := do
    let x ← operand e
    emit (.ofHead ((Head.py "yield").withArgs [x]))) ?_
  exact .bind (emits_operand e) fun x _ =>
    .emit (statementHead_shaped rfl rfl rfl rfl (by simp [statementKinds]) (by simp))

private theorem emitsFrom_bindParams {entry : Nat} (params : List Param) {s : State} (housed : s.Housed)
    (isOpen : entry < s.blocks.length) :
    EmitsFrom Staged.Shaped s (bindParams entry params) fun _ => True := by
  induction params generalizing s with
  | nil => exact Emits.pure trivial s housed
  | cons p rest ih =>
    have hbind := fun t : State => t.freshDefinition_define p.name entry
    have hblocks : ∀ t : State, (t.bind p.name (annotatedTy? p.annot) entry).2.blocks = t.blocks :=
      fun t => (hbind t).2.2.1
    obtain ⟨-, hframe, -, hhome⟩ := hbind s
    refine EmitsFrom.bind (Q := fun _ => True) (EmitsFrom.step ⟨?_, trivial, .inl fun bs => hblocks _⟩) ?_
    · refine housed.frame (hframe.trans (Alike.declare p.name _).frame) (by rw [hblocks]) fun a b v hp => ?_
      have hp' := (hhome a).symm.trans hp
      split at hp'
      · cases hp'
        exact isOpen
      · exact housed.pending a b v hp'
    · intro value t run housed' _
      have ht : t.blocks = s.blocks := by rw [← hblocks s, runs_step.mp run]
      refine (ih housed' (by rw [ht]; exact isOpen)).bind fun more u _ housed'' _ => ?_
      exact Emits.pure (Q := fun _ => True) trivial u housed''

private theorem emits_function (name : String) (params : Params) (decorators : List Expr)
    (returns : Option Expr) (span : Option Span) {x : Lower Unit}
    (hx : Emits Staged.Shaped x fun _ => True) :
    Emits Staged.Shaped (function name params decorators returns span x) Staged.Shaped := by
  unfold function
  cases params.refused? with
  | some construct => exact .refuse _ _
  | none =>
    refine .bind (emits_declare name _) fun _ _ => ?_
    refine .bind (.modify (fun _ housed => housed.pushFunction) fun _ _ => rfl) fun _ _ => ?_
    refine .bind (Q := fun _ => True) (fun s housed => ?_) fun r _ => ?_
    · refine EmitsFrom.inBlock (Q := fun _ => True) ?_
      have hentry : s.blocks.length < s.enter.blocks.length := by
        rw [show s.enter.blocks = s.blocks.extend from rfl, Blocks.length_extend]
        exact Nat.lt_succ_self _
      refine (emitsFrom_bindParams params.plain housed.enter hentry).bind fun formals t _ housed' _ => ?_
      exact Emits.bind hx (fun _ _ => Emits.pure (Q := fun _ => True) trivial) t housed'
    · refine .bind (.modify (fun _ housed => housed.popFunction) fun _ _ => rfl) fun _ _ => ?_
      exact .pure (functionHead_shaped name decorators r.2 (annotatedTy? returns) r.1)

private theorem emits_classDefinition (name : String) (bases : List Expr) (keywords : List Keyword)
    (decorators : List Expr) {x : Lower Unit} (hx : Emits Staged.Shaped x fun _ => True) :
    Emits Staged.Shaped (classDefinition name bases keywords decorators x) Staged.Shaped := by
  have hsame : ∀ {s t : State}, s.Housed → SameVars s t → t.Housed := fun housed same =>
    housed.sameVars same
  refine .bind (.modify (fun s housed => hsame housed ⟨rfl, rfl, rfl, rfl, rfl⟩) fun _ _ => rfl)
    fun _ _ => ?_
  refine .bind (emits_region hx) fun slot hslot => ?_
  exact .bind (.modify (fun s housed => hsame housed ⟨rfl, rfl, rfl, rfl, rfl⟩) fun _ _ => rfl)
    fun _ _ => .pure (statementHead_shaped rfl rfl rfl rfl (by simp [statementKinds]) (by simp [hslot]))

mutual

theorem emits_statement : (st : Stmt) → Emits Staged.Shaped (statement st) Staged.Shaped
  | .mk (.functionDef name params stmts decorators returns) span =>
    emits_function name params decorators returns span (emits_body stmts)
  | .mk (.classDef name bases keywords stmts decorators) _ =>
    emits_classDefinition name bases keywords decorators (emits_body stmts)
  | .mk (.ret none) _ => .pure (statementHead_shaped rfl rfl rfl rfl (by simp [statementKinds]) (by simp))
  | .mk (.ret (some e)) _ =>
    .bind (emits_operand e) fun x _ =>
      .pure (statementHead_shaped rfl rfl rfl rfl (by simp [statementKinds]) (by simp))
  | .mk (.assign targets value) span =>
    .bind (emits_singleTarget targets span) fun name _ => emits_assignment name value none
  | .mk (.augAssign target op value) span => by
    refine .bind (emits_targetName target span .augTarget) fun name _ => ?_
    refine .bind (emits_operand value) fun x _ => .bind (emits_writeThrough name) fun _ _ => ?_
    exact .pure (statementHead_shaped rfl rfl rfl rfl (by simp [statementKinds]) (by simp))
  | .mk (.annAssign target annot value simple) span => emits_annotated target annot value simple span
  | .mk (.forIn target iter stmts _) span => by
    rw [statement]
    refine .guard (.bind (emits_targetName target span .forTarget) fun name _ => ?_)
    refine .bind (emits_exprRegion iter) fun source hsource => .bind (emits_writeThrough name) fun _ _ => ?_
    exact .bind (emits_region (emits_body stmts)) fun loop hloop =>
      .pure (statementHead_shaped rfl rfl rfl rfl (by simp [statementKinds]) (by simp [hsource, hloop]))
  | .mk (.whileDo test stmts _) _ => by
    rw [statement]
    refine .guard (.bind (emits_exprRegion test) fun condition hcondition => ?_)
    exact .bind (emits_region (emits_body stmts)) fun loop hloop =>
      .pure (statementHead_shaped rfl rfl rfl rfl (by simp [statementKinds]) (by simp [hcondition, hloop]))
  | .mk (.ifElse test yes no) _ => by
    rw [statement]
    refine .bind (emits_operand test) fun x _ => .bind (emits_region (emits_body yes)) fun slot hslot => ?_
    split
    · exact .pure (statementHead_shaped rfl rfl rfl rfl (by simp [statementKinds]) (by simp [hslot]))
    · exact .bind (emits_region (emits_body no)) fun other hother =>
        .pure (statementHead_shaped rfl rfl rfl rfl (by simp [statementKinds]) (by simp [hslot, hother]))
  | .mk (.expr value) _ =>
    .bind (emits_operand value) fun x _ =>
      .pure (statementHead_shaped rfl rfl rfl rfl (by simp [statementKinds]) (by simp))
  | .mk .pass _ => .pure (statementHead_shaped rfl rfl rfl rfl (by simp [statementKinds]) (by simp))
  | .mk .breakLoop _ => .pure (statementHead_shaped rfl rfl rfl rfl (by simp [statementKinds]) (by simp))
  | .mk .continueLoop _ => .pure (statementHead_shaped rfl rfl rfl rfl (by simp [statementKinds]) (by simp))
  | .mk (.bare _) _ => .refuse _ _

theorem emits_body : (stmts : List Stmt) → Emits Staged.Shaped (body stmts) fun _ => True
  | [] => .pure trivial
  | st :: rest => .bind (emits_statement st) fun _ h => .bind (.emit h) fun _ _ => emits_body rest

end

end Lower

open Operator

/-- The shape of an operator with its regions. -/
structure Operator.Formed (op : Operator) : Prop where
  head : op.head.Shaped
  regions : op.head.AllowsRegions op.regions.length
  blocks : ∀ r ∈ op.regions, ∃ label items, r = .single label items ∧ op.head.Labels label

mutual

/-- Operators that are spelled out have the shape that they were staged with. -/
theorem Unfolds.formed {F : Blocks} (shaped : ∀ b, ∀ staged ∈ F.contents b, staged.Shaped) :
    ∀ {lo hi : Nat} {items : List Staged} {ops : List Operator}, Unfolds F lo items hi ops →
    (∀ staged ∈ items, staged.Shaped) → ∀ op ∈ Walk.operators.items () ops, op.Formed
  | _, _, _, _, .nil, _ => by simp
  | _, _, _, _, @Unfolds.cons _ _ _ _ staged items regions ops slots rest, hitems => by
    have hstaged := hitems staged List.mem_cons_self
    obtain ⟨hlength, hregions, hbelow⟩ := slots.formed shaped
    have hrest := rest.formed shaped fun st hst => hitems st (List.mem_cons_of_mem _ hst)
    intro op hop
    rw [Walk.operators_cons, hstaged.regions, List.nil_append, walk_mk, List.mem_append, List.mem_cons] at hop
    rcases hop with (rfl | hop) | hop
    · refine ⟨hstaged.head, ?_, ?_⟩
      · rw [Operator.regions, hlength]
        exact hstaged.slots
      · intro r hr
        obtain ⟨slot, hslot, inside, rfl⟩ := hregions r hr
        exact ⟨slot.label, inside, rfl, hstaged.labels slot hslot⟩
    · exact hbelow op hop
    · exact hrest op hop

theorem UnfoldsSlots.formed {F : Blocks} (shaped : ∀ b, ∀ staged ∈ F.contents b, staged.Shaped) :
    ∀ {lo hi : Nat} {slots : List Slot} {regions : List Region}, UnfoldsSlots F lo slots hi regions →
    regions.length = slots.length ∧
      (∀ r ∈ regions, ∃ slot ∈ slots, ∃ items, r = .single slot.label items) ∧
      ∀ op ∈ Walk.operators.regions () regions, op.Formed
  | _, _, _, _, .nil => ⟨rfl, by simp, by simp⟩
  | lo, _, _, _, @UnfoldsSlots.cons _ _ _ _ label slots regions ops inner rest => by
    obtain ⟨hlength, hregions, hbelow⟩ := rest.formed shaped
    have hinner := inner.formed shaped (shaped lo)
    refine ⟨by simp [hlength], ?_, ?_⟩
    · intro r hr
      rcases List.mem_cons.mp hr with rfl | hr
      · exact ⟨⟨lo, label⟩, List.mem_cons_self, ops, rfl⟩
      · obtain ⟨slot, hslot, items, hitems⟩ := hregions r hr
        exact ⟨slot, List.mem_cons_of_mem _ hslot, items, hitems⟩
    · intro op hop
      rw [Walk.operators_single, List.mem_append] at hop
      exact hop.elim (hinner op) (hbelow op)

end

namespace Operator

def IsYield (op : Operator) : Prop := op.head.opcode = "py.yield"

def IsLoop (op : Operator) : Prop := op.head.opcode ∈ ["py.for", "py.while"]

/-- The first region of a loop ends with a `yield`, and no other operator of a region is one. -/
def Yields (op : Operator) : Prop :=
  (op.IsLoop → ∃ items y rest, op.regions = .single none (items ++ [y]) :: rest ∧ y.IsYield ∧
    (∀ o ∈ items, ¬ o.IsYield) ∧ ∀ r ∈ rest, ∀ o ∈ r.firstItems, ¬ o.IsYield) ∧
  (¬ op.IsLoop → ∀ r ∈ op.regions, ∀ o ∈ r.firstItems, ¬ o.IsYield)

private theorem Yields.leaf {op : Operator} (loop : ¬ op.IsLoop) (regions : op.regions = []) :
    op.Yields :=
  ⟨fun h => absurd h loop, fun _ => by simp [regions]⟩

private theorem walk_of_no_regions {op : Operator} (h : op.regions = []) : op.walk = [op] := by
  obtain ⟨head, regions⟩ := op
  rw [show regions = [] from h, walk_mk, Walk.regions_nil]

private theorem mem_walkAll {o : Operator} {ops : List Operator} :
    o ∈ Walk.operators.items () ops ↔ ∃ op ∈ ops, o ∈ op.walk := by
  induction ops with
  | nil => simp
  | cons op ops ih => simp [Walk.operators_cons, ih]

private theorem IsOperand.opcode {op : Operator} (h : op.IsOperand) : ¬ op.IsYield ∧ ¬ op.IsLoop := by
  have hopcode := h.1
  simp only [operandOpcodes, List.mem_cons, List.not_mem_nil, or_false] at hopcode
  rcases hopcode with h | h | h | h | h | h | h <;> simp [IsYield, IsLoop, h]

private theorem IsStore.opcode {op : Operator} {v : ValueId} (h : op.IsStore v) :
    ¬ op.IsYield ∧ ¬ op.IsLoop ∧ op.regions = [] := by
  obtain ⟨name, ty, rfl⟩ := h
  simp [IsYield, IsLoop, Operator.leaf, Operator.head, Operator.regions, storeHead, Head.opcode,
    Dialect.text]

end Operator

private theorem Head.Assigns.opcode_eq {h : Head} {opcode name : String}
    (assigns : h.Assigns opcode name) :
    h.opcode = opcode ∨ h.opcode = "py.store" := by
  rcases assigns with ⟨hopcode, -⟩ | ⟨hopcode, -⟩
  · exact .inl hopcode
  · exact .inr hopcode

/-- No statement becomes a `yield`, and loops become loops. -/
theorem Stmt.Becomes.opcode {inFunction : Bool} {st : Stmt} {h : Head} (becomes : st.Becomes inFunction h) :
    h.opcode ≠ "py.yield" ∧ (h.opcode ∈ ["py.for", "py.while"] ↔ st.isLoop = true) := by
  obtain ⟨form, span⟩ := st
  cases form with
  | assign targets value =>
    obtain ⟨name, -, assigns⟩ := becomes
    rcases assigns.opcode_eq with hopcode | hopcode <;> simp [hopcode, Stmt.isLoop]
  | annAssign target annot value simple =>
    rw [Stmt.Becomes] at becomes
    split at becomes
    · obtain ⟨name, -, assigns⟩ := becomes
      rcases assigns.opcode_eq with hopcode | hopcode <;> simp [hopcode, Stmt.isLoop]
    · simp [becomes, Stmt.isLoop]
  | bare kind => exact becomes.elim
  | _ =>
    have hopcode : h.opcode = _ := becomes
    simp [hopcode, Stmt.isLoop]

mutual

theorem Laid.yields : ∀ {ids : List ValueId} {inFunction : Bool} {stmts : List Stmt} {ops : List Operator},
    Laid ids inFunction stmts ops → (∀ op ∈ ops, ¬ op.IsYield) ∧ ∀ op ∈ Walk.operators.items () ops, op.Yields
  | _, _, _, _, @Laid.intro _ _ stmts ops place _ own others => by
    have hall : ∀ j, ¬ (ops.get j).IsYield ∧ ∀ o ∈ (ops.get j).walk, o.Yields := by
      intro j
      by_cases hown : ∃ i, place i = j
      · obtain ⟨i, rfl⟩ := hown
        exact (own i).yields
      · rcases others j fun i hi => hown ⟨i, hi⟩ with ⟨hoperand, -⟩ | ⟨v, hstore, -⟩
        · obtain ⟨hyield, hloop⟩ := hoperand.opcode
          rw [walk_of_no_regions hoperand.2]
          exact ⟨hyield, fun o ho => List.mem_singleton.mp ho ▸ .leaf hloop hoperand.2⟩
        · obtain ⟨hyield, hloop, hregions⟩ := hstore.opcode
          rw [walk_of_no_regions hregions]
          exact ⟨hyield, fun o ho => List.mem_singleton.mp ho ▸ .leaf hloop hregions⟩
    constructor
    · intro op hop
      obtain ⟨j, rfl⟩ := List.get_of_mem hop
      exact (hall j).1
    · intro o ho
      obtain ⟨op, hop, ho⟩ := mem_walkAll.mp ho
      obtain ⟨j, rfl⟩ := List.get_of_mem hop
      exact (hall j).2 o ho

theorem Mirrors.yields : ∀ {inFunction : Bool} {st : Stmt} {op : Operator}, Mirrors inFunction st op →
    ¬ op.IsYield ∧ ∀ o ∈ op.walk, o.Yields
  | _, _, _, @Mirrors.intro _ st own label before regions becomes _ sources bodies => by
    obtain ⟨hyield, hloop⟩ := becomes.opcode
    obtain ⟨hbodies, hbelow⟩ := bodies.yields
    refine ⟨hyield, ?_⟩
    intro o ho
    rw [walk_mk, Walk.regions_append, List.mem_cons, List.mem_append] at ho
    by_cases hst : st.isLoop = true
    · rw [Stmt.Sources, if_pos hst] at sources
      obtain ⟨items, y, rfl, hitems, hy, hleaf⟩ := sources
      rcases ho with rfl | ho | ho
      · exact ⟨fun _ => ⟨items, y, regions, rfl, hy, fun x hx => (hitems x hx).opcode.1, hbodies⟩,
          fun hnot => absurd (hloop.mpr hst) hnot⟩
      · rw [Walk.operators_single, Walk.regions_nil, List.append_nil] at ho
        obtain ⟨op, hop, ho⟩ := mem_walkAll.mp ho
        rcases List.mem_append.mp hop with hop | hop
        · rw [walk_of_no_regions (hitems op hop).2] at ho
          exact List.mem_singleton.mp ho ▸ .leaf (hitems op hop).opcode.2 (hitems op hop).2
        · rw [List.mem_singleton.mp hop, walk_of_no_regions hleaf] at ho
          exact List.mem_singleton.mp ho ▸ .leaf (by simp [IsLoop, hy]) hleaf
      · exact hbelow o ho
    · rw [Stmt.Sources, if_neg hst] at sources
      subst sources
      rcases ho with rfl | ho | ho
      · exact ⟨fun h => absurd (hloop.mp h) hst, fun _ => hbodies⟩
      · simp at ho
      · exact hbelow o ho

theorem LaidBodies.yields : ∀ {label : Option Label} {bodies : List (Bool × List Stmt)}
    {regions : List Region}, LaidBodies label bodies regions →
    (∀ r ∈ regions, ∀ op ∈ r.firstItems, ¬ op.IsYield) ∧ ∀ op ∈ Walk.operators.regions () regions, op.Yields
  | _, _, _, .nil => ⟨by simp, by simp⟩
  | _, _, _, .cons inside rest => by
    obtain ⟨hfirst, hinside⟩ := inside.yields
    obtain ⟨hothers, hrest⟩ := rest.yields
    refine ⟨?_, ?_⟩
    · intro r hr op hop
      rcases List.mem_cons.mp hr with rfl | hr
      · exact hfirst op hop
      · exact hothers r hr op hop
    · intro op hop
      rw [Walk.operators_single, List.mem_append] at hop
      exact hop.elim (hinside op) (hrest op)

end

def Param.Becomes (p : Param) (formal : ValueId × Ty) : Prop :=
  (formal.1 = .named p.name ∨ ∃ n, formal.1 = .versioned p.name n) ∧ formal.2 = annotatedTy? p.annot

private theorem Lower.becomes_of_bindParams {entry : Nat} {params : List Param} {s t : State}
    {formals : List (ValueId × Ty)} (run : Runs (Lower.bindParams entry params) s formals t) :
    List.Forall₂ Param.Becomes params formals := by
  induction params generalizing s formals with
  | nil =>
    obtain ⟨rfl, -⟩ := Lower.runs_pure.mp run
    exact .nil
  | cons p rest ih =>
    simp only [Lower.bindParams, Lower.runs_bind, Lower.runs_step, Lower.runs_pure] at run
    obtain ⟨value, u, hvalue, more, v, hmore, rfl, rfl⟩ := run
    refine .cons ⟨?_, rfl⟩ (ih hmore)
    obtain ⟨fresh, -⟩ := s.freshDefinition_define p.name entry
    have hfresh : value = (s.freshDefinition p.name).1 := (congrArg Prod.fst hvalue).symm
    rw [hfresh]
    exact fresh.ofVersion

/-- A function operator: one region, whose label has a parameter for each formal parameter. -/
def Operator.HasFormals (op : Operator) (f : Function) : Prop :=
  ∃ params items, op.regions = [.single (some ⟨entryLabel, params⟩) items] ∧
    List.Forall₂ Param.Becomes f.params.plain params

private theorem Emitted.hasFormals {f : Function} {op : Operator} (h : Emitted f op) :
    op.HasFormals f := by
  cases h with
  | @intro s t u ty formals inside own placed bind inner =>
    exact ⟨formals, inside, rfl, Lower.becomes_of_bindParams bind⟩

private theorem Operator.isFunction_iff (op : Operator) :
    op.isFunction = true ↔ op.head.opcode = "builtin.func" := by
  have hopcode : op.head.opcode = "builtin.func" ↔
      op.head.opcode.toList = "builtin.func".toList := String.toList_inj.symm
  rw [hopcode, Head.opcode, String.toList_append, String.toList_append]
  cases hd : op.head.dialect with
  | py => simp [isFunction, hd, Dialect.text]
  | builtin =>
    have hname : op.head.name = "func" ↔ op.head.name.toList = "func".toList := String.toList_inj.symm
    simp [isFunction, hd, Dialect.text, hname]

/-- The whole shape of an operator. -/
structure Operator.WellShaped (op : Operator) : Prop extends op.Formed where
  yields : op.Yields

private theorem moduleHead_shaped : (Head.builtin "module").Shaped := by
  refine ⟨rfl, rfl, ?_, ?_⟩
  · simp [Head.resultCount, Head.opcode, Dialect.text, operandOpcodes]
  · simp [Head.AllowsArgs, Head.opcode, Dialect.text]

theorem SourceUnit.records_of_lower {stmts : List Stmt} {op : Operator}
    (h : (SourceUnit.module stmts).lower = .ok op) :
    ∃ cs t ops, Lower.Records Staged.Shaped (Lower.region (Lower.body stmts)) {} cs ⟨0, none⟩ t ∧
      UnfoldsSlots t.blocks 0 [⟨0, none⟩] t.blocks.length [.single none ops] ∧
      op = .mk (Head.builtin "module") [.single none ops] := by
  obtain ⟨t, _, ops, run, hblocks, -, unfolds, hop⟩ := staged_of_lower h
  have hbody : Lower.EmitsFrom Staged.Shaped State.initial (Lower.body stmts) fun _ => True :=
    Lower.emits_body stmts _ .initial
  obtain ⟨-, -, cs, records⟩ := Lower.EmitsFrom.region (s := {}) hbody _ t run
  rw [← hblocks] at unfolds
  exact ⟨cs, t, ops, records, unfolds, hop⟩

private theorem SourceUnit.formed_of_lower {stmts : List Stmt} {op : Operator}
    (h : (SourceUnit.module stmts).lower = .ok op) : ∀ o ∈ op.walk, o.Formed := by
  obtain ⟨cs, t, ops, records, unfolds, rfl⟩ := records_of_lower h
  obtain ⟨-, -, hbelow⟩ := unfolds.formed records.all
  intro o ho
  rw [walk_mk, List.mem_cons] at ho
  rcases ho with rfl | ho
  · refine ⟨moduleHead_shaped, ?_, ?_⟩
    · simp [Head.AllowsRegions, Operator.head, Operator.regions, Head.opcode, Dialect.text]
    · intro r hr
      refine ⟨none, ops, List.mem_singleton.mp hr, ?_⟩
      simp [Head.Labels, Operator.head, Head.opcode, Dialect.text]
  · exact hbelow o ho

private theorem SourceUnit.yields_of_lower {stmts : List Stmt} {op : Operator}
    (h : (SourceUnit.module stmts).lower = .ok op) : ∀ o ∈ op.walk, o.Yields := by
  obtain ⟨t, ops, grows, rfl⟩ := grows_of_lower h
  obtain ⟨hfirst, hbelow⟩ := (grows.laid State.initial_placed State.initial_holds).1.yields
  intro o ho
  rw [walk_mk, Walk.operators_single, Walk.regions_nil, List.append_nil, List.mem_cons] at ho
  rcases ho with rfl | ho
  · refine ⟨fun hloop => ?_, fun _ r hr => ?_⟩
    · simp [IsLoop, Operator.head, Head.opcode, Dialect.text] at hloop
    · rw [List.mem_singleton.mp hr]
      exact hfirst
  · exact hbelow o ho

/-- Every operator of the tree of an accepted module is well-shaped: its opcode tells the numbers of its
results, operands and regions, the entry blocks of functions alone have labels, with a parameter for each
formal parameter, and loops alone have a `yield`, at the end of their first region. -/
theorem lowered_tree_well_shaped {stmts : List Stmt} {op : Operator}
    (accepted : (SourceUnit.module stmts).lower = .ok op) :
    op.head.opcode = "builtin.module" ∧ (∀ o ∈ op.walk, o.WellShaped) ∧
      List.Forall₂ (fun f o => o.HasFormals f) (Stmt.functionsAll stmts)
        (op.walk.filter (·.head.opcode = "builtin.func")) := by
  have hformed := SourceUnit.formed_of_lower accepted
  have hyields := SourceUnit.yields_of_lower accepted
  refine ⟨?_, fun o ho => ⟨hformed o ho, hyields o ho⟩, ?_⟩
  · obtain ⟨t, ops, -, rfl⟩ := SourceUnit.grows_of_lower accepted
    simp [Operator.head, Head.opcode, Dialect.text]
  · have hfunctions : op.walk.filter (·.head.opcode = "builtin.func") = op.functions := by
      refine List.filter_congr fun o _ => ?_
      rw [Bool.eq_iff_iff, o.isFunction_iff]
      exact decide_eq_true_iff
    rw [hfunctions]
    exact (SourceUnit.functions_of_lower accepted).imp fun _ _ emitted => emitted.hasFormals

/-- A function with both loops, one of which assigns again to a variable from before it. -/
def drainingProgram : List Stmt :=
  [.function "drain" [⟨"queue", none⟩, ⟨"limit", some (.ofName "int")⟩] (some (.ofName "int"))
    [.assign "taken" (.ofInt 0),
      .whileDo (.ofName "queue")
        [.ifElse (.binOp (.ofName "limit") .sub (.ofName "taken"))
            [.augAssign "taken" .add (.ofInt 1)] [.ofForm .breakLoop]],
      .forIn "item" (.ofName "queue") [.expr (.call (.ofName "drop") [.ofName "item"] [])],
      .ret (some (.ofName "taken"))]]

theorem drainingProgram_well_shaped :
    ∃ op, (SourceUnit.module drainingProgram).lower = .ok op ∧
      op.walk.map (·.head.opcode) = ["builtin.module", "builtin.func", "py.constant", "py.assign",
        "py.store", "py.while", "py.yield", "py.binOp", "py.if", "py.constant", "py.augAssign", "py.break",
        "py.for", "py.yield", "py.load", "py.call", "py.expr", "py.load", "py.return"] ∧
      op.head.opcode = "builtin.module" ∧ (∀ o ∈ op.walk, o.WellShaped) ∧
      List.Forall₂ (fun f o => o.HasFormals f) (Stmt.functionsAll drainingProgram)
        (op.walk.filter (·.head.opcode = "builtin.func")) := by
  obtain ⟨op, accepted, hopcodes⟩ := SourceUnit.exists_of_view
    (show (SourceUnit.module drainingProgram).lower.toOption.map
      (fun op => op.walk.map (·.head.opcode)) = some ["builtin.module", "builtin.func", "py.constant",
        "py.assign", "py.store", "py.while", "py.yield", "py.binOp", "py.if", "py.constant",
        "py.augAssign", "py.break", "py.for", "py.yield", "py.load", "py.call", "py.expr", "py.load",
        "py.return"] by decide +kernel)
  exact ⟨op, accepted, hopcodes, lowered_tree_well_shaped accepted⟩

end RegionIR
