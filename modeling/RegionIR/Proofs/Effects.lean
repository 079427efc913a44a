import RegionIR.Proofs.Accesses
import RegionIR.Proofs.Variables
import RegionIR.Proofs.Walks
/-!
# The effects of statements

A simple statement computes its operands in a straight line and then writes at most one variable. A
compound one has a straight line before its bodies, either in the current block or in a region of its
own. In both cases the accesses are those of the source.
-/
namespace RegionIR

def binding : List String := ["load", "store", "assign", "cast"]

/-- An operator of a statement that neither reads nor defines a variable by itself. -/
structure Head.Quiet (h : Head) : Prop where
  dialect : h.dialect = .py
  name : h.name ∉ binding
  results : h.results = []

/-- The end of a simple statement whose operands are `args`: the accesses that write, its operator, and
the state just before the operator is appended. -/
inductive Settles (m : State) (args : List ValueId) : List Act → Head → State → Prop
  | plain {own : Head} (quiet : own.Quiet) (takes : own.args = args) : Settles m args [] own m
  | define {own : Head} {name : String} {value : ValueId} {t : State} (dialect : own.dialect = .py)
      (opcode : own.name = "assign" ∨ own.name = "cast") (results : own.results = [value])
      (takes : own.args = args) (write : Write m name (some value) t) :
      Settles m args [.bind name] own t
  | store {name : String} {x : ValueId} {ty : Ty} {t : State} (takes : args = [x])
      (known : m.home name ≠ .undefined) (write : Write m name none t) :
      Settles m args [.bind name] (storeHead name x ty) t
  | through {own : Head} {name : String} {t : State} (quiet : own.Quiet) (takes : own.args = args)
      (write : Write m name none t) : Settles m args [.touch name] own t

theorem Settles.args {m t : State} {args : List ValueId} {writes : List Act} {own : Head}
    (h : Settles m args writes own t) : own.args = args := by
  cases h with
  | plain _ takes => exact takes
  | define _ _ _ takes _ => exact takes
  | store takes _ _ => exact takes.symm
  | through _ takes _ => exact takes

private theorem Settles.of_assign (m : State) (name : String) (x : Operand) (declared : Option Ty) :
    Settles m [x.1] [.bind name] (m.assign name x declared).1 (m.assign name x declared).2 := by
  obtain ⟨value, ty, _, hown, write⟩ | ⟨known, hown, write⟩ := m.write_assign name x declared
  · refine .define ?_ ?_ ?_ ?_ write <;> rw [hown]
    · rfl
    · cases declared <;> simp
    · rfl
    · rfl
  · rw [hown]
    exact .store rfl known write

namespace Lower

variable {s t : State}

theorem flat_of_operand {e : Expr} {x : Operand} (run : Runs (operand e) s x t) :
    ∃ hs, Flat s e.reads hs [x.1] t := by
  obtain ⟨hs, line⟩ := straight_of_operand run
  exact ⟨hs, line.flat⟩

theorem flat_of_operands {es : List Expr} {xs : List Operand} (run : Runs (operands es) s xs t) :
    ∃ hs, Flat s (Expr.readsAll es) hs (xs.map Prod.fst).reverse t := by
  obtain ⟨hs, line⟩ := straight_of_operands run
  exact ⟨hs, by simpa using line.flat⟩

end Lower

def Stmt.inputs : Stmt → List Expr
  | mk form _ =>
    match form with
    | .ret value => value.toList
    | .expr value => [value]
    | .assign _ value => [value]
    | .augAssign _ _ value => [value]
    | .annAssign _ _ value _ => value.toList
    | .forIn _ iter _ _ => [iter]
    | .whileDo test _ _ => [test]
    | .ifElse test _ _ => [test]
    | _ => []

theorem Simple.computes {s t : State} {st : Stmt} {own : Head} (h : Simple s st own t) :
    ∃ s₀ xs m writes, Alike s s₀ ∧ Lower.Runs (Lower.operands st.inputs) s₀ xs m ∧
      Settles m (xs.map Prod.fst) writes own t ∧
      st.acts s.inFunction = (Expr.readsAll st.inputs).map Act.read ++ writes := by
  cases h with
  | @ret _ _ xs _ run =>
    refine ⟨s, xs, t, [], .refl s, run, .plain ?_ (by simp), by simp [Stmt.acts, Stmt.inputs]⟩
    constructor <;> simp [binding]
  | @expr _ _ x _ run =>
    refine ⟨s, [x], t, [], .refl s, Lower.runs_operands_singleton run, .plain ?_ (by simp),
      by simp [Stmt.acts, Stmt.inputs, Expr.readsAll]⟩
    constructor <;> simp [binding]
  | pass =>
    refine ⟨s, [], s, [], .refl s, Lower.runs_operands_nil, .plain ?_ (by simp),
      by simp [Stmt.acts, Stmt.inputs, Expr.readsAll]⟩
    constructor <;> simp [binding]
  | breakLoop =>
    refine ⟨s, [], s, [], .refl s, Lower.runs_operands_nil, .plain ?_ (by simp),
      by simp [Stmt.acts, Stmt.inputs, Expr.readsAll]⟩
    constructor <;> simp [binding]
  | continueLoop =>
    refine ⟨s, [], s, [], .refl s, Lower.runs_operands_nil, .plain ?_ (by simp),
      by simp [Stmt.acts, Stmt.inputs, Expr.readsAll]⟩
    constructor <;> simp [binding]
  | @declare _ _ _ _ _ xs _ site run =>
    refine ⟨_, xs, t, [], .declareTarget _ _, run, .plain ?_ (by simp [fieldHead]), ?_⟩
    · constructor <;> simp [binding, fieldHead]
    · by_cases hsite : s.inFunction = true
      · rw [if_pos hsite] at site
        simp [Stmt.acts, Stmt.inputs, site.2]
      · simp [Stmt.acts, Stmt.inputs, hsite]
  | @assign m name _ x _ _ run =>
    exact ⟨s, [x], m, [.bind name], .refl s, Lower.runs_operands_singleton run, .of_assign m name x none,
      by simp [Stmt.acts, Stmt.inputs, Expr.name?, Expr.readsAll]⟩
  | @annotate m name annot _ _ x _ _ site run =>
    exact ⟨s, [x], m, [.bind name], .refl s, Lower.runs_operands_singleton run, .of_assign m name x _,
      by simp [Stmt.acts, Stmt.inputs, Expr.name?, site]⟩
  | @augAssign m name _ _ x _ _ run =>
    refine ⟨s, [x], m, [.touch name], .refl s, Lower.runs_operands_singleton run,
      .through ?_ (by simp [augHead]) (m.write_writeThrough name),
      by simp [Stmt.acts, Stmt.inputs, Expr.name?, Expr.readsAll]⟩
    constructor <;> simp [binding, augHead]

/-- A simple statement is a straight line of operands followed by at most one write. -/
theorem Simple.settles {s t : State} {st : Stmt} {own : Head} (h : Simple s st own t) :
    ∃ s₀ reads hs args m writes, Alike s s₀ ∧ Flat s₀ reads hs args.reverse m ∧
      Settles m args writes own t ∧ st.acts s.inFunction = reads.map Act.read ++ writes := by
  obtain ⟨s₀, xs, m, writes, same, run, settles, acts⟩ := h.computes
  obtain ⟨hs, flat⟩ := Lower.flat_of_operands run
  exact ⟨s₀, _, hs, _, m, writes, same, flat, settles, acts⟩

def yieldHead (x : Operand) : Head := (Head.py "yield").withArgs [x]

def yieldRegion (hs : List Head) (x : Operand) : Region :=
  .single none ((hs ++ [yieldHead x]).map .leaf)

/-- What a compound statement does before its bodies: the accesses, the operators it appends, the
regions it has already and its operands. -/
inductive Opening (s : State) :
    List Act → List Head → List Slot → List Region → List ValueId → State → Prop
  | inline {reads : List String} {hs : List Head} {args : List ValueId} {t : State}
      (flat : Flat s reads hs args.reverse t) : Opening s (reads.map .read) hs [] [] args t
  | loop {reads : List String} {hs : List Head} {x : Operand} {u v t : State} {writes : List Act}
      (flat : Flat s.enter reads hs [x.1] u)
      (leave : (u.emit (.ofHead (yieldHead x))).leave? s.blocks.length = some v)
      (written : writes = [] ∧ t = v ∨ ∃ name, writes = [.touch name] ∧ Write v name none t) :
      Opening s (.nest (reads.map .read) :: writes) [] [⟨s.blocks.length, none⟩] [yieldRegion hs x] [] t

/-- A compound statement as an opening followed by bodies. The state `m` is where the opening ends; a
class then takes note that its body is not in a function. -/
structure Opened (s : State) (st : Stmt) (own : Head) (slots : List Slot) (bodies : List (List Stmt))
    (t : State) (close : State → State) (pre : List Act) (hs : List Head) (regions : List Region)
    (m : State) : Prop where
  opening : Opening s pre hs slots regions own.args m
  quiet : own.Quiet
  start : SameVars m t
  finish : ∀ u, SameVars u (close u)
  sites : ∀ u, m.sites = s.sites → u.sites = t.sites → (close u).sites = s.sites
  acts : m.sites = s.sites → st.acts s.inFunction =
    pre ++ bodies.map fun body => .nest (Stmt.actsAll t.inFunction body)

theorem Opens.opened {s t : State} {st : Stmt} {own : Head} {slots : List Slot}
    {bodies : List (List Stmt)} {close : State → State} (h : Opens s st own slots bodies t close) :
    ∃ pre hs regions m, Opened s st own slots bodies t close pre hs regions m := by
  cases h with
  | @branch _ test yes no x _ run =>
    obtain ⟨hs, flat⟩ := Lower.flat_of_operand run
    refine ⟨_, hs, [], t, .inline (by simpa using flat), ?_, .refl t, fun u => .refl u, ?_, ?_⟩
    · constructor <;> simp [binding]
    · intro u hm hu
      exact hu.trans hm
    · intro hm
      cases no <;> simp [Stmt.acts, branches, State.inFunction, State.site, hm]
  | whileDo region =>
    obtain ⟨hs, flat⟩ := Lower.flat_of_operand region.1
    refine ⟨_, [], _, t, .loop flat region.2 (.inl ⟨rfl, rfl⟩), ?_, .refl t, fun u => .refl u, ?_, ?_⟩
    · constructor <;> simp [binding]
    · intro u hm hu
      exact hu.trans hm
    · intro hm
      simp [Stmt.acts, State.inFunction, State.site, hm]
  | @forIn v _ name _ _ x _ _ region =>
    obtain ⟨hs, flat⟩ := Lower.flat_of_operand region.1
    refine ⟨_, [], _, _, .loop flat region.2 (.inr ⟨name, rfl, v.write_writeThrough name⟩), ?_,
      .refl _, fun u => .refl u, ?_, ?_⟩
    · constructor <;> simp [binding]
    · intro u hm hu
      exact hu.trans hm
    · intro hm
      simp [Stmt.acts, State.inFunction, State.site, hm, Expr.name?]
  | classDef =>
    refine ⟨_, [], [], s, .inline .start, ?_, ⟨rfl, rfl, rfl, rfl, rfl⟩,
      fun u => ⟨rfl, rfl, rfl, rfl, rfl⟩, ?_, ?_⟩
    · constructor <;> simp [binding, classHead]
    · intro u _ hu
      simp [State.popClass, hu, State.pushClass]
    · intro _
      simp [Stmt.acts, State.inFunction, State.site, State.pushClass]

end RegionIR
