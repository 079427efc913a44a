import RegionIR.Proofs.Jumps
import RegionIR.Proofs.Meaning
import RegionIR.Tree.Build
/-!
# Statements and their operators

The tree of a program follows its source. Every statement has one operator, whose opcode tells its kind,
the operators of a block stand in the order of the statements, and bodies become regions. All other
operators of a block compute operands or store a value that the block holds.
-/
namespace RegionIR

open Lower (Runs)

def operandOpcodes : List String :=
  ["py.constant", "py.binOp", "py.unaryOp", "py.boolOp", "py.compare", "py.call", "py.load"]

/-- An operator that gives a variable a value: it produces an id of the variable, or stores to it. -/
def Head.Assigns (h : Head) (opcode name : String) : Prop :=
  (h.opcode = opcode ∧ ∃ v, h.results = [v] ∧ (v = .named name ∨ ∃ n, v = .versioned name n)) ∨
    h.opcode = "py.store" ∧ h.attrs.get? "name" = some (.text name)

def Label.ids : Option Label → List ValueId
  | some l => l.params.map Prod.fst
  | none => []

/-- The label of an operator's regions: a function has one, with the types that the function has. -/
def Head.Labels (h : Head) (label : Option Label) : Prop :=
  if h.opcode = "builtin.func" then ∃ formals result, label = some ⟨entryLabel, formals⟩ ∧
    h.attrs.get? "function_type" = some (.functionType (formals.map Prod.snd) result)
  else label = none

namespace Operator

def IsOperand (op : Operator) : Prop := op.head.opcode ∈ operandOpcodes ∧ op.regions = []

def IsStore (op : Operator) (value : ValueId) : Prop := ∃ name ty, op = .leaf (storeHead name value ty)

end Operator

namespace Stmt

/-- The kind of operator that a statement becomes. -/
def Becomes (inFunction : Bool) : Stmt → Head → Prop
  | mk form _, h =>
    match form with
    | .functionDef .. => h.opcode = "builtin.func"
    | .classDef .. => h.opcode = "py.class"
    | .ret _ => h.opcode = "py.return"
    | .assign targets _ =>
      ∃ name, targets.map Expr.name? = [some name] ∧ h.Assigns "py.assign" name
    | .augAssign .. => h.opcode = "py.augAssign"
    | .annAssign target _ value _ =>
      if inFunction ∧ value.isSome then ∃ name, target.name? = some name ∧ h.Assigns "py.cast" name
      else h.opcode = "py.annAssign"
    | .forIn .. => h.opcode = "py.for"
    | .whileDo .. => h.opcode = "py.while"
    | .ifElse .. => h.opcode = "py.if"
    | .expr _ => h.opcode = "py.expr"
    | .pass => h.opcode = "py.pass"
    | .breakLoop => h.opcode = "py.break"
    | .continueLoop => h.opcode = "py.continue"
    | .bare _ => False

/-- The lists of statements that become regions, each with whether the innermost definition around it is
a function. -/
def bodies (inFunction : Bool) : Stmt → List (Bool × List Stmt)
  | mk form _ =>
    match form with
    | .functionDef _ _ body _ _ => [(true, body)]
    | .classDef _ _ _ body _ => [(false, body)]
    | .forIn _ _ body _ => [(inFunction, body)]
    | .whileDo _ body _ => [(inFunction, body)]
    | .ifElse _ yes no => (inFunction, yes) :: if no.isEmpty then [] else [(inFunction, no)]
    | _ => []

def isLoop : Stmt → Bool
  | mk form _ =>
    match form with
    | .forIn .. => true
    | .whileDo .. => true
    | _ => false

/-- The regions that come before those of the bodies: a loop has one that computes an operand and yields
it. -/
def Sources (st : Stmt) (regions : List Region) : Prop :=
  if st.isLoop then ∃ items y, regions = [.single none (items ++ [y])] ∧
    (∀ op ∈ items, op.IsOperand) ∧ y.head.opcode = "py.yield" ∧ y.regions = []
  else regions = []

end Stmt

mutual

/-- The operators of a block follow the statements: there is a place for each statement, in ascending
order, where its operator stands. An operator at any other place computes an operand, for a statement
after it, or stores a value of the block itself: one of `ids`, or the result of an operator before it. -/
inductive Laid : List ValueId → Bool → List Stmt → List Operator → Prop
  | intro {ids : List ValueId} {inFunction : Bool} {stmts : List Stmt} {ops : List Operator}
      (place : Fin stmts.length → Fin ops.length) (ascending : StrictMono place)
      (own : ∀ i, Mirrors inFunction (stmts.get i) (ops.get (place i)))
      (others : ∀ j, (∀ i, place i ≠ j) → ((ops.get j).IsOperand ∧ ∃ i, j < place i) ∨
        ∃ v, (ops.get j).IsStore v ∧ (v ∈ ids ∨ ∃ k < j, v ∈ (ops.get k).head.results)) :
      Laid ids inFunction stmts ops

/-- The operator of a statement, with the regions of its bodies. -/
inductive Mirrors : Bool → Stmt → Operator → Prop
  | intro {inFunction : Bool} {st : Stmt} {own : Head} {label : Option Label}
      {before regions : List Region} (becomes : st.Becomes inFunction own) (labels : own.Labels label)
      (sources : st.Sources before) (bodies : LaidBodies label (st.bodies inFunction) regions) :
      Mirrors inFunction st (.mk own (before ++ regions))

/-- Regions of one block each, in the order of the bodies. -/
inductive LaidBodies : Option Label → List (Bool × List Stmt) → List Region → Prop
  | nil {label : Option Label} : LaidBodies label [] []
  | cons {label : Option Label} {inFunction : Bool} {stmts : List Stmt} {ops : List Operator}
      {bodies : List (Bool × List Stmt)} {regions : List Region}
      (inside : Laid (Label.ids label) inFunction stmts ops) (rest : LaidBodies label bodies regions) :
      LaidBodies label ((inFunction, stmts) :: bodies) (.single label ops :: regions)

end

theorem Head.Computes.opcode {h : Head} (computes : h.Computes) : h.opcode ∈ operandOpcodes := by
  have hname := computes.name
  simp only [computing, List.mem_cons, List.not_mem_nil, or_false] at hname
  rcases hname with hn | hn | hn | hn | hn | hn <;>
    simp [Head.opcode, computes.dialect, hn, Dialect.text, operandOpcodes]

theorem Flat.opcode {s t : State} {reads : List String} {hs : List Head} {pool : List ValueId}
    (flat : Flat s reads hs pool t) : ∀ h ∈ hs, h.opcode ∈ operandOpcodes := by
  induction flat with
  | start => simp
  | load flat home ih =>
    intro h hh
    rcases List.mem_append.mp hh with hh | hh
    · exact ih h hh
    · rw [List.mem_singleton.mp hh]
      simp [Head.opcode, loadHead, Dialect.text, operandOpcodes]
  | value flat home ih => exact ih
  | op flat computes known ih =>
    intro h hh
    rcases List.mem_append.mp hh with hh | hh
    · exact ih h hh
    · rw [List.mem_singleton.mp hh]
      exact computes.opcode
  | drop flat known used ih => exact ih

def State.Holds (s : State) (block : Nat) (ids : List ValueId) : Prop :=
  ∀ a v, s.home a = .pending block v → v ∈ ids

private theorem Retro.isStore {s : State} {block : Nat} {ids : List ValueId}
    {P : String → ValueId → Prop}
    {ls : List Late} (retro : Retro (fun a v => s.home a = .pending block v ∧ P a v) ls)
    (holds : s.Holds block ids) : ∀ op ∈ (ls.map Late.head).map Operator.leaf, ∃ v ∈ ids, op.IsStore v := by
  intro op hop
  obtain ⟨h, hh, rfl⟩ := List.mem_map.mp hop
  obtain ⟨⟨a, v, ty⟩, hl, rfl⟩ := List.mem_map.mp hh
  exact ⟨v, holds a v ((retro.mem a v).mp ⟨ty, hl⟩).1, a, ty, rfl⟩

/-- What a statement appends before its operator: its operands, and stores of values that move. -/
theorem isOperand_or_isStore {hs : List Head} {ls : List Late} {ids : List ValueId}
    (operands : ∀ x ∈ hs, x.opcode ∈ operandOpcodes)
    (stores : ∀ op ∈ (ls.map Late.head).map Operator.leaf, ∃ v ∈ ids, op.IsStore v) :
    ∀ op ∈ (hs ++ ls.map Late.head).map Operator.leaf, op.IsOperand ∨ ∃ v ∈ ids, op.IsStore v := by
  intro op hop
  rw [List.map_append] at hop
  rcases List.mem_append.mp hop with hop | hop
  · obtain ⟨x, hx, rfl⟩ := List.mem_map.mp hop
    exact .inl ⟨operands x hx, rfl⟩
  · exact .inr (stores op hop)

private theorem getElem_behind (front : List Operator) (op : Operator) (ops : List Operator) {k : Nat}
    (h : front.length + 1 + k < (front ++ op :: ops).length) (hk : k < ops.length) :
    (front ++ op :: ops)[front.length + 1 + k] = ops[k] := by
  rw [List.getElem_append_right (by omega)]
  simp [show front.length + 1 + k - front.length = k + 1 by omega]

private theorem exists_result {ops : List Operator} {n : Nat} {v : ValueId}
    (h : v ∈ (ops.take n).flatMap (·.head.results)) (j : Fin ops.length) (hj : n ≤ j) :
    ∃ k < j, v ∈ (ops.get k).head.results := by
  obtain ⟨op, hop, hv⟩ := List.mem_flatMap.mp h
  obtain ⟨k, hk, rfl⟩ := List.mem_take_iff_getElem.mp hop
  exact ⟨⟨k, by omega⟩, show k < j.val by omega, hv⟩

private theorem strictMono_cases {m n : Nat} {start : Fin m} {f : Fin n → Fin m}
    (first : ∀ i, start < f i) (ascending : StrictMono f) :
    StrictMono (Fin.cases start f : Fin (n + 1) → Fin m) := by
  intro i j hij
  cases i using Fin.cases with
  | zero =>
    cases j using Fin.cases with
    | zero => exact absurd hij (lt_irrefl _)
    | succ j => exact first j
  | succ i =>
    cases j using Fin.cases with
    | zero => exact absurd hij (Fin.not_lt_zero _)
    | succ j => exact ascending (Fin.succ_lt_succ_iff.mp hij)

namespace Laid

variable {ids : List ValueId} {inFunction : Bool} {st : Stmt} {stmts : List Stmt} {op : Operator}
  {ops front more : List Operator}

theorem nil : Laid ids inFunction [] [] :=
  .intro (fun i => i.elim0) (fun i => i.elim0) (fun i => i.elim0) fun j => j.elim0

theorem cons (hfront : ∀ x ∈ front, x.IsOperand ∨ ∃ v ∈ ids, x.IsStore v)
    (first : Mirrors inFunction st op)
    (rest : Laid (ids ++ (front ++ [op]).flatMap (·.head.results)) inFunction stmts ops) :
    Laid ids inFunction (st :: stmts) (front ++ op :: ops) := by
  obtain ⟨place, ascending, own, others⟩ := rest
  have hlength : (front ++ op :: ops).length = front.length + 1 + ops.length := by
    simp only [List.length_append, List.length_cons]
    omega
  let start : Fin (front ++ op :: ops).length := ⟨front.length, by omega⟩
  let behind (k : Fin ops.length) : Fin (front ++ op :: ops).length :=
    ⟨front.length + 1 + k, by omega⟩
  have hbehind : ∀ k, (front ++ op :: ops).get (behind k) = ops.get k := fun k =>
    getElem_behind front op ops (behind k).isLt k.isLt
  refine .intro (Fin.cases start fun i => behind (place i)) ?_ ?_ ?_
  · refine strictMono_cases (fun i => ?_) fun i j hij => ?_
    · show front.length < front.length + 1 + place i
      omega
    · exact Nat.add_lt_add_left (ascending hij) (front.length + 1)
  · intro i
    cases i using Fin.cases with
    | zero => simpa [start] using first
    | succ i =>
      show Mirrors inFunction (stmts.get i) ((front ++ op :: ops).get (behind (place i)))
      rw [hbehind]
      exact own i
  · intro j hj
    have hstart : start ≠ j := hj 0
    rcases Nat.lt_trichotomy j front.length with hlt | heq | hgt
    · have hget : (front ++ op :: ops).get j = front.get ⟨j, hlt⟩ := List.getElem_append_left hlt
      rw [hget]
      rcases hfront _ (List.get_mem front ⟨j, hlt⟩) with hoperand | ⟨v, hv, hstore⟩
      · exact .inl ⟨hoperand, 0, hlt⟩
      · exact .inr ⟨v, hstore, .inl hv⟩
    · exact absurd (Fin.ext heq.symm) hstart
    · obtain ⟨k, rfl⟩ : ∃ k, j = behind k := ⟨⟨j - (front.length + 1), by omega⟩, Fin.ext (by
        show (j : Nat) = front.length + 1 + (j - (front.length + 1))
        omega)⟩
      have hk : ∀ i, place i ≠ k := by
        intro i hi
        exact hj i.succ (congrArg behind hi)
      rw [hbehind]
      rcases others k hk with ⟨hoperand, i, hi⟩ | ⟨v, hstore, hv | ⟨l, hl, hv⟩⟩
      · exact .inl ⟨hoperand, i.succ, Nat.add_lt_add_left hi (front.length + 1)⟩
      · refine .inr ⟨v, hstore, ?_⟩
        rcases List.mem_append.mp hv with hv | hv
        · exact .inl hv
        · have htake : (front ++ op :: ops).take (front.length + 1) = front ++ [op] := by
            simp [List.take_append]
          rw [← htake] at hv
          exact .inr (exists_result hv (behind k) (Nat.le_add_right _ _))
      · refine .inr ⟨v, hstore, .inr ⟨behind l, Nat.add_lt_add_left hl (front.length + 1), ?_⟩⟩
        rw [hbehind]
        exact hv

theorem append (h : Laid ids inFunction stmts ops)
    (stores : ∀ x ∈ more, ∃ v ∈ ids ++ ops.flatMap (·.head.results), x.IsStore v) :
    Laid ids inFunction stmts (ops ++ more) := by
  obtain ⟨place, ascending, own, others⟩ := h
  have hlength : ops.length ≤ (ops ++ more).length := by simp
  have hget : ∀ k, (ops ++ more).get (Fin.castLE hlength k) = ops.get k := fun k =>
    List.getElem_append_left k.isLt
  refine .intro (fun i => Fin.castLE hlength (place i)) (fun i j hij => ascending hij) ?_ ?_
  · intro i
    rw [hget]
    exact own i
  · intro j hj
    by_cases hlt : j < ops.length
    · have hcast : j = Fin.castLE hlength ⟨j, hlt⟩ := rfl
      rw [hcast, hget]
      rcases others ⟨j, hlt⟩ fun i hi => hj i (congrArg (Fin.castLE hlength) hi) with
        ⟨hoperand, i, hi⟩ | ⟨v, hstore, hv | ⟨k, hk, hv⟩⟩
      · exact .inl ⟨hoperand, i, hi⟩
      · exact .inr ⟨v, hstore, .inl hv⟩
      · exact .inr ⟨v, hstore, .inr ⟨Fin.castLE hlength k, hk, by rw [hget]; exact hv⟩⟩
    · have hmem : (ops ++ more).get j ∈ more := by
        show (ops ++ more)[j.val] ∈ more
        rw [List.getElem_append_right (by omega)]
        exact List.getElem_mem _
      obtain ⟨v, hv, hstore⟩ := stores _ hmem
      refine .inr ⟨v, hstore, ?_⟩
      rcases List.mem_append.mp hv with hv | hv
      · exact .inl hv
      · have htake : (ops ++ more).take ops.length = ops := List.take_left
        rw [← htake] at hv
        exact .inr (exists_result hv j (by omega))

end Laid

theorem Fresh.ofVersion {s t : State} {name : String} {value : ValueId} (h : Fresh s name value t) :
    value = .named name ∨ ∃ n, value = .versioned name n := by
  cases h with
  | plain => exact .inl rfl
  | version => exact .inr ⟨_, rfl⟩

theorem State.assign_assigns (s : State) (name : String) (x : Operand) (declared : Option Ty) :
    (s.assign name x declared).1.Assigns (if declared.isSome then "py.cast" else "py.assign") name := by
  obtain ⟨value, ty, -, hown, write⟩ | ⟨-, hown, -⟩ := s.write_assign name x declared
  · left
    rw [hown]
    refine ⟨?_, value, rfl, ?_⟩
    · cases declared <;> simp [Head.opcode, Dialect.text]
    · cases write with
      | define _ _ _ fresh _ => exact fresh.ofVersion
  · right
    rw [hown]
    simp [Head.opcode, Dialect.text, storeHead]

theorem Head.labels_none {h : Head} (dialect : h.dialect = .py) : h.Labels none := by
  have hopcode : h.opcode ≠ "builtin.func" := by
    intro heq
    have hchars := congrArg String.toList heq
    simp [Head.opcode, dialect, Dialect.text] at hchars
  simp [Head.Labels, hopcode]

private theorem Mirrors.leaf {inFunction : Bool} {st : Stmt} {own : Head} (dialect : own.dialect = .py)
    (becomes : st.Becomes inFunction own) (loop : st.isLoop = false)
    (bodies : st.bodies inFunction = []) : Mirrors inFunction st (.leaf own) := by
  have hsources : st.Sources [] := by simp [Stmt.Sources, loop]
  have hbodies : LaidBodies none (st.bodies inFunction) [] := by
    rw [bodies]
    exact .nil
  exact .intro becomes (Head.labels_none dialect) hsources hbodies

private theorem Simple.becomes {s t : State} {st : Stmt} {own : Head} (one : Simple s st own t) :
    st.Becomes s.inFunction own := by
  cases one with
  | ret => simp [Stmt.Becomes, Head.opcode, Dialect.text]
  | expr => simp [Stmt.Becomes, Head.opcode, Dialect.text]
  | pass => simp [Stmt.Becomes, Head.opcode, Dialect.text]
  | breakLoop => simp [Stmt.Becomes, Head.opcode, Dialect.text]
  | continueLoop => simp [Stmt.Becomes, Head.opcode, Dialect.text]
  | @declare _ target annot value simple xs span site run =>
    have hsite : ¬ (s.inFunction = true ∧ value.isSome = true) := by
      rintro ⟨hin, hvalue⟩
      rw [if_pos hin] at site
      rw [site.2] at hvalue
      exact Bool.noConfusion hvalue
    rw [Stmt.Becomes, if_neg hsite]
    simp [Head.opcode, Dialect.text, fieldHead]
  | @assign m name value x at_ span run => exact ⟨name, rfl, m.assign_assigns name x none⟩
  | @annotate m name annot value simple x at_ span site run =>
    rw [Stmt.Becomes, if_pos ⟨site, rfl⟩]
    exact ⟨name, rfl, m.assign_assigns name x (some annot.annotatedTy)⟩
  | augAssign => simp [Stmt.Becomes, Head.opcode, Dialect.text, augHead]

private theorem Simple.mirrors {s t : State} {st : Stmt} {own : Head} (one : Simple s st own t) :
    Mirrors s.inFunction st (.leaf own) := by
  obtain ⟨s₀, reads, hs, args, m, writes, -, -, settles, -⟩ := one.settles
  refine .leaf settles.dialect one.becomes ?_ ?_
  · cases one <;> rfl
  · cases one <;> rfl

private theorem Opens.becomes {s t : State} {st : Stmt} {own : Head} {slots : List Slot}
    {bodies : List (List Stmt)} {close : State → State} (opens : Opens s st own slots bodies t close) :
    st.Becomes s.inFunction own ∧ st.isLoop = !slots.isEmpty ∧
      st.bodies s.inFunction = bodies.map (t.inFunction, ·) := by
  cases opens with
  | @branch _ test yes no x _ run =>
    obtain ⟨hs, flat⟩ := Lower.flat_of_operand run
    refine ⟨by simp [Stmt.Becomes, Head.opcode, Dialect.text], rfl, ?_⟩
    rw [State.inFunction_congr s flat.appended.sites]
    cases no <;> rfl
  | whileDo region =>
    obtain ⟨hs, flat⟩ := Lower.flat_of_operand region.1
    refine ⟨by simp [Stmt.Becomes, Head.opcode, Dialect.text], rfl, ?_⟩
    rw [State.inFunction_congr s (Extends.of_loop flat region.2 (.inl ⟨rfl, rfl⟩)).sites]
    rfl
  | @forIn v _ name _ _ x _ _ region =>
    obtain ⟨hs, flat⟩ := Lower.flat_of_operand region.1
    refine ⟨by simp [Stmt.Becomes, Head.opcode, Dialect.text], rfl, ?_⟩
    rw [State.inFunction_congr s
      (Extends.of_loop flat region.2 (.inr ⟨name, rfl, v.write_writeThrough name⟩)).sites]
    rfl
  | classDef => exact ⟨by simp [Stmt.Becomes, Head.opcode, Dialect.text, classHead], rfl, rfl⟩

private theorem Opening.sources {s m : State} {pre : List Act} {hs : List Head} {slots : List Slot}
    {regions : List Region} {args : List ValueId} (h : Opening s pre hs slots regions args m)
    {st : Stmt} (loop : st.isLoop = !slots.isEmpty) :
    st.Sources regions ∧ ∀ x ∈ hs, x.opcode ∈ operandOpcodes := by
  cases h with
  | inline flat => exact ⟨by simp [Stmt.Sources, loop], flat.opcode⟩
  | @loop _ hs x _ _ _ _ flat leave written =>
    refine ⟨?_, by simp⟩
    have hloop : st.isLoop = true := loop
    rw [Stmt.Sources, if_pos hloop]
    refine ⟨hs.map .leaf, .leaf (yieldHead x), ?_, ?_, ?_, rfl⟩
    · rw [yieldRegion, List.map_append]
      rfl
    · intro op hop
      obtain ⟨h, hh, rfl⟩ := List.mem_map.mp hop
      exact ⟨flat.opcode h hh, rfl⟩
    · simp [Operator.leaf, Operator.head, yieldHead, Head.opcode, Dialect.text]

theorem functionHead_labels (name : String) (decorators : List Expr) (formals : List (ValueId × Ty))
    (result : Ty) : (functionHead name decorators formals result).opcode = "builtin.func" ∧
      (functionHead name decorators formals result).Labels (some ⟨entryLabel, formals⟩) := by
  obtain ⟨hdialect, hname⟩ := functionHead_opcode name decorators formals result
  have hopcode : (functionHead name decorators formals result).opcode = "builtin.func" := by
    simp [Head.opcode, hdialect, hname, Dialect.text]
  refine ⟨hopcode, ?_⟩
  rw [Head.Labels, if_pos hopcode]
  exact ⟨formals, result, rfl, Attrs.get?_set_self _ _ _⟩

private theorem Settles.mem_results {m t : State} {args : List ValueId} {writes : List Act} {own : Head}
    (h : Settles m args writes own t) {a : String} {v : ValueId} (hp : t.home a = .pending m.current v) :
    m.home a = .pending m.current v ∨ v ∈ own.results := by
  cases h with
  | plain => exact .inl hp
  | @define _ name value _ dialect opcode results takes write =>
    cases write with
    | define _ _ _ _ home =>
      rw [home] at hp
      split at hp
      · right
        injection hp with _ hv
        simp [results, hv]
      · exact .inl hp
  | store _ _ write => exact .inl (write.pending_before hp)
  | through _ _ write => exact .inl (write.pending_before hp)

private theorem Binds.holds {s t : State} {names : List String} {values : List ValueId} {name : String}
    {ty : Ty}
    (binds : Binds s.blocks.length (s.declare name ty).pushFunction.enter names values t) :
    t.Holds t.current values := by
  intro a v hp
  exact (binds.of_pending hp).2.1

private theorem Mirrors.function {inFunction : Bool} {name : String} {params : Params} {body : List Stmt}
    {decorators : List Expr} {returns : Option Expr} {span : Option Span} {formals : List (ValueId × Ty)}
    {result : Ty} {inside : List Operator} (laid : Laid (formals.map Prod.fst) true body inside) :
    Mirrors inFunction (.mk (.functionDef name params body decorators returns) span)
      (.mk (functionHead name decorators formals result) [.single (some ⟨entryLabel, formals⟩) inside]) := by
  obtain ⟨hopcode, labels⟩ := functionHead_labels name decorators formals result
  have hbodies : LaidBodies (some ⟨entryLabel, formals⟩) [(true, body)]
      [.single (some ⟨entryLabel, formals⟩) inside] := .cons laid .nil
  exact @Mirrors.intro _ _ _ _ [] _ hopcode labels rfl hbodies

private theorem Laid.step {s t u : State} {st : Stmt} {stmts : List Stmt} {op : Operator}
    {ids : List ValueId}
    {front ops : List Operator} (current : t.current = s.current) (sites : t.sites = s.sites)
    (hfront : ∀ x ∈ front, x.IsOperand ∨ ∃ v ∈ ids, x.IsStore v) (first : Mirrors s.inFunction st op)
    (rest : Laid (ids ++ (front ++ [op]).flatMap (·.head.results)) t.inFunction stmts ops ∧
      u.Holds t.current (ids ++ (front ++ [op]).flatMap (·.head.results) ++ ops.flatMap (·.head.results))) :
    Laid ids s.inFunction (st :: stmts) (front ++ op :: ops) ∧
      u.Holds s.current (ids ++ (front ++ op :: ops).flatMap (·.head.results)) := by
  obtain ⟨hrest, hend⟩ := rest
  rw [State.inFunction_congr s sites] at hrest
  rw [current] at hend
  exact ⟨.cons hfront first hrest, by simpa using hend⟩

mutual

/-- What a pass over statements grows follows them. The values that variables have in the block at the
end are those from the start and results of the operators. -/
theorem Grows.laid : ∀ {Z : List String} {s s' : State} {stmts : List Stmt} {ops : List Operator},
    Grows Z s stmts s' ops → s.Placed → ∀ {ids : List ValueId}, s.Holds s.current ids →
    Laid ids s.inFunction stmts ops ∧ s'.Holds s.current (ids ++ ops.flatMap (·.head.results))
  | _, _, _, _, _, .nil, _, ids, holds => ⟨.nil, by simpa using holds⟩
  | _, s, s', _, _, @Grows.simple _ _ t _ st own stmts hs ops one gains rest, placed, ids, holds => by
    obtain ⟨s₀, reads, hs', args, m, writes, ls, rfl, same, flat, settles, -, retro⟩ :=
      one.gained placed gains
    have hcur : m.current = s.current := by rw [flat.appended.current, same.current]
    have hnext := one.extension.emitted (.ofHead own)
    have hown : (t.emit (.ofHead own)).Holds (t.emit (.ofHead own)).current
        (ids ++ ((hs' ++ ls.map Late.head).map Operator.leaf ++ [Operator.leaf own]).flatMap
          (·.head.results)) := by
      intro a v hp
      rw [hnext.current, ← hcur] at hp
      rw [List.flatMap_append, List.mem_append, List.mem_append]
      rcases settles.mem_results hp with hm | hv
      · rw [hcur, flat.appended.home, same.home] at hm
        exact .inl (holds a v hm)
      · exact .inr (.inr (by simpa [Operator.leaf, Operator.head] using hv))
    exact Laid.step hnext.current hnext.sites (isOperand_or_isStore flat.opcode (retro.isStore holds))
      one.mirrors (rest.laid (placed.extension hnext) hown)
  | _, s, s', _, _, @Grows.compound _ _ t m u _ st own slots more bodies close pre hs regions others
      stmts ls ops opens opened inner retro rest, placed, ids, holds => by
    have hopen := opened.opening.extension
    have hnext := opened.emitted inner.lowers.extension (.ofHead own (slots ++ more))
    have hown : ((close u).emit (.ofHead own (slots ++ more))).Holds
        ((close u).emit (.ofHead own (slots ++ more))).current
        (ids ++ ((hs ++ ls.map Late.head).map Operator.leaf ++
          [Operator.mk own (regions ++ others)]).flatMap
          (·.head.results)) := by
      intro a v hp
      rw [hnext.current] at hp
      exact List.mem_append_left _
        (holds a v (opened.pending_before inner.lowers.extension placed hp))
    have hinner := inner.laid ((placed.extension hopen).sameVars opened.start)
    obtain ⟨becomes, loop, hst⟩ := opens.becomes
    obtain ⟨sources, hhs⟩ := opened.opening.sources loop
    rw [← hst] at hinner
    exact Laid.step hnext.current hnext.sites (isOperand_or_isStore hhs (retro.isStore holds))
      (.intro becomes (Head.labels_none opened.quiet.dialect) sources hinner)
      (rest.laid (placed.extension hnext) hown)
  | _, s, s', _, _, @Grows.function _ _ t u v _ name params body stmts decorators returns span formals
      inside ops accepted bind inner leave rest, placed, ids, holds => by
    have binds := Lower.binds_of_bindParams bind
    have left := State.left_of_leave? leave
    have houter := binds.home_popFunction inner.lowers.extension.toFrame left
    have hnext := binds.emitted inner.lowers.extension left
      (.ofHead (functionHead name decorators formals (annotatedTy? returns))
        [⟨s.blocks.length, some ⟨entryLabel, formals⟩⟩])
    let own : Operator := .mk (functionHead name decorators formals (annotatedTy? returns))
      [.single (some ⟨entryLabel, formals⟩) inside]
    have hown : (v.popFunction.emit
        (.ofHead (functionHead name decorators formals (annotatedTy? returns))
          [⟨s.blocks.length, some ⟨entryLabel, formals⟩⟩])).Holds s.current
        (ids ++ ([] ++ [own] : List Operator).flatMap (·.head.results)) := by
      intro a w hp
      exact List.mem_append_left _ (holds a w ((houter a).symm.trans hp))
    rw [← hnext.current] at hown
    have hin := binds.inFunction
    obtain ⟨hinner, -⟩ := inner.laid (binds.placed placed) binds.holds
    rw [hin] at hinner
    have hfront : ∀ x ∈ ([] : List Operator), x.IsOperand ∨ ∃ v ∈ ids, x.IsStore v := by simp
    exact Laid.step hnext.current hnext.sites hfront (.function hinner)
      (rest.laid (placed.extension hnext) hown)

theorem GrowsBodies.laid : ∀ {Z : List String} {s s' : State} {bodies : List (List Stmt)}
    {slots : List Slot} {regions : List Region}, GrowsBodies Z s bodies slots s' regions → s.Placed →
    LaidBodies none (bodies.map (s.inFunction, ·)) regions
  | _, _, _, _, _, _, .nil, _ => .nil
  | _, s, s', _, _, _, @GrowsBodies.cons _ _ t u _ stmts bodies slots ops ls regions inner leave late
      rest, placed => by
    have hregion := inner.lowers.extension.region (State.left_of_leave? leave)
    -- A new block holds no value yet.
    have hempty : s.enter.Holds s.enter.current [] := by
      intro a v hp
      exact absurd (placed.pending a _ v hp) (lt_irrefl _)
    obtain ⟨hinner, hend⟩ := inner.laid placed.enter hempty
    have hrest := rest.laid (placed.extension (hregion.weaken _))
    rw [State.inFunction_congr s hregion.sites] at hrest
    exact .cons (hinner.append (late.isStore hend)) hrest

end

theorem State.initial_holds : State.initial.Holds State.initial.current [] := by
  intro a v hp
  exact Home.noConfusion hp

/-- The tree of an accepted module follows its statements: every statement has exactly one operator, in
source order and at the matching place, and every other operator computes an operand or stores a value of
its block. -/
theorem statements_laid_in_order {stmts : List Stmt} {op : Operator}
    (accepted : (SourceUnit.module stmts).lower = .ok op) :
    ∃ ops, op = .mk (Head.builtin "module") [.single none ops] ∧ Laid [] false stmts ops := by
  obtain ⟨t, ops, grows, rfl⟩ := SourceUnit.grows_of_lower accepted
  exact ⟨ops, rfl, (grows.laid State.initial_placed State.initial_holds).1⟩

/-- A class with a field and a method, whose loop assigns again to a variable of the branch before it. -/
def searchingClassProgram : List Stmt :=
  [.ofForm (.classDef "Table" [] [] [.annAssign "size" (.ofName "int") (some (.ofInt 0)),
    .function "find" [⟨"keys", none⟩, ⟨"key", none⟩] none
      [.annAssign "found" (.ofName "bool") (some (.ofLiteral (.bool false))),
        .ifElse (.ofName "key") [.assign "at" (.ofInt 0)] [.ofForm .pass],
        .forIn "k" (.ofName "keys")
          [.ifElse (.binOp (.ofName "k") .sub (.ofName "key")) []
              [.annAssign "found" (.ofName "bool") (some (.ofLiteral (.bool true))), .ofForm .breakLoop],
            .assign "at" (.binOp (.ofName "at") .add (.ofInt 1))],
        .ret (some (.ofName "found"))]] []),
    .expr (.call (.ofName "Table") [] [])]

theorem searchingClassProgram_laid :
    ∃ op ops, (SourceUnit.module searchingClassProgram).lower = .ok op ∧
      op = .mk (Head.builtin "module") [.single none ops] ∧ Laid [] false searchingClassProgram ops := by
  obtain ⟨op, accepted, -⟩ := SourceUnit.exists_of_view
    (show (SourceUnit.module searchingClassProgram).lower.toOption.map (fun _ => ()) = some () by
      decide +kernel)
  obtain ⟨ops, hop, laid⟩ := statements_laid_in_order accepted
  exact ⟨op, ops, accepted, hop, laid⟩

end RegionIR
