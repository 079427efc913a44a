import RegionIR.Proofs.Acceptance
import RegionIR.Proofs.Simulation
import RegionIR.Tree.Build
/-!
# Lowering preserves the meaning of functions without loops

A function without loops is accepted wherever it can stand alone, and its operator does what the
function does: for every interpretation and all arguments it has the same trace and the same outcome.
-/
namespace RegionIR

open Operator

universe u

variable {D : Type u}

/-- Distinct plain parameters, a body without loops, and no dot or leading digit in the names that it
reads and binds. -/
structure Function.LoopFree (f : Function) : Prop where
  accepted : f.params.refused? = none
  distinct : f.params.names.Nodup
  body : Stmt.loopFreeAll f.body = true
  plain : ∀ x ∈ f.params.names ++ Act.namesAll (Stmt.actsAll true f.body), PlainName x

private theorem lookup_zip_of_not_mem {α β : Type*} [DecidableEq α] {keys : List α} {k : α}
    (values : List β) (h : k ∉ keys) : (keys.zip values).lookup k = none := by
  rw [List.lookup_eq_none_iff]
  intro p hp
  have hk := (List.of_mem_zip hp).1
  simp only [bne_iff_ne, ne_eq]
  rintro rfl
  exact h hk

namespace Binds

variable {entry : Nat} {s t : State} {names : List String} {values : List ValueId}

private theorem length (h : Binds entry s names values t) : values.length = names.length := by
  induction h with
  | nil => rfl
  | cons _ _ _ _ _ ih => rw [List.length_cons, List.length_cons, ih]

private theorem ofVar (h : Binds entry s names values t) :
    ∀ v ∈ values, ∃ x ∈ names, v.OfVar x s.counter t.counter := by
  induction h with
  | nil => simp
  | @cons s t u name value names values _ _ fresh _ rest ih =>
    intro v hv
    rcases List.mem_cons.mp hv with rfl | hv
    · exact ⟨name, List.mem_cons_self, fresh.ofVar.2.mono le_rfl rest.counter_le⟩
    · obtain ⟨x, hx, hids⟩ := ih v hv
      exact ⟨x, List.mem_cons_of_mem _ hx, hids.mono fresh.ofVar.1 le_rfl⟩

private theorem argument (h : Binds entry s names values t) (distinct : names.Nodup)
    (plain : ∀ x ∈ names, PlainName x) {args : List D} (hlen : args.length = names.length) {x : String}
    (hx : x ∈ names) : ∃ v d, t.home x = .pending entry v ∧ v.OfVar x s.counter t.counter ∧
      (values.zip args).lookup v = some d ∧ (names.zip args).lookup x = some d := by
  induction h generalizing args with
  | nil => simp at hx
  | @cons s t u name value names values _ _ fresh home rest ih =>
    obtain ⟨d, args, rfl⟩ : ∃ d ds, args = d :: ds := List.exists_cons_of_length_eq_add_one hlen
    rw [List.nodup_cons] at distinct
    by_cases hname : x = name
    · subst hname
      refine ⟨value, d, ?_, fresh.ofVar.2.mono le_rfl rest.counter_le, by simp, by simp⟩
      have hhome := rest.home x
      rw [if_neg distinct.1, home x, if_pos rfl] at hhome
      exact hhome
    · have hx' := (List.mem_cons.mp hx).resolve_left hname
      obtain ⟨v, d', hhome, hids, hvalue, harg⟩ := ih distinct.2
        (fun y hy => plain y (List.mem_cons_of_mem _ hy)) (by simpa using hlen) hx'
      have hne : v ≠ value := hids.ne fresh.ofVar.2 (plain x hx) (plain name List.mem_cons_self) hname
      refine ⟨v, d', hhome, hids.mono fresh.ofVar.1 le_rfl, ?_, ?_⟩
      · rw [List.zip_cons_cons, List.lookup_cons, beq_eq_false_iff_ne.mpr hne, hvalue]
      · rw [List.zip_cons_cons, List.lookup_cons, beq_eq_false_iff_ne.mpr hname, harg]

end Binds

private def Function.start (f : Function) (outer : String → Option D) (args : List D) : Activation D :=
  ⟨fun x => ((f.params.names.zip args).lookup x).or (f.outside outer x), []⟩

private def Function.startMachine (f : Function) (outer : String → Option D) (values : List ValueId)
    (args : List D) : Machine D :=
  ⟨fun v => ((values.zip args).lookup v).or (f.entry outer v), fun _ => none, []⟩

namespace Function.LoopFree

variable {f : Function} {args : List D}

private theorem plain_param (h : f.LoopFree) : ∀ x ∈ f.params.names, PlainName x := fun x hx =>
  h.plain x (List.mem_append_left _ hx)

private theorem localNames (h : f.LoopFree) (outer : String → Option D) :
    Local (f.outside outer) (Stmt.actsAll true f.body) where
  plain x hx := h.plain x (List.mem_append_right _ hx)
  unbound _ hx := if_pos (List.mem_append_right _ hx)

private theorem agrees (h : f.LoopFree) {s t : State} {ty : Ty} {values : List ValueId}
    (binds : Binds s.blocks.length (s.declare f.name ty).pushFunction.enter f.params.names values t)
    (outer : String → Option D) (hlen : args.length = f.params.names.length) (Z : List String) :
    Agrees (f.outside outer) Z (some t.current) (fun _ => True) t (f.start outer args)
      (f.startMachine outer values args) := by
  have hcurrent := binds.entry.1
  have hvalues : ∀ v ∉ values, (f.startMachine outer values args).values v = f.entry outer v := by
    intro v hv
    simp [startMachine, lookup_zip_of_not_mem args hv]
  have hpending : ∀ x b v, t.home x = .pending b v → x ∈ f.params.names ∧ b = t.current ∧
      v.OfVar x 0 t.counter ∧ ∃ d, (values.zip args).lookup v = some d ∧
        (f.params.names.zip args).lookup x = some d := by
    intro x b v hp
    have hx := (binds.of_pending hp).1
    obtain ⟨w, d, hw, hids, hvalue, harg⟩ := binds.argument h.distinct h.plain_param hlen hx
    rw [hp] at hw
    cases hw
    exact ⟨hx, hcurrent.symm, hids.mono (Nat.zero_le _) le_rfl, d, hvalue, harg⟩
  refine ⟨rfl, ?_, ?_, ?_, ?_, ?_, ?_, ?_⟩
  · intro x hx
    have hnot : x ∉ f.params.names := by
      intro hmem
      obtain ⟨w, d, hw, -⟩ := binds.argument h.distinct h.plain_param hlen hmem
      rw [hx] at hw
      exact Home.noConfusion hw
    refine ⟨by simp [start, lookup_zip_of_not_mem args hnot], rfl, fun hplain => ?_⟩
    have hnamed : ValueId.OfVar x 0 0 (.named x) := .inl rfl
    rw [hvalues (.named x), entry, ValueId.plain?_named hplain]
    · rfl
    · intro hmem
      obtain ⟨y, hy, hids⟩ := binds.ofVar _ hmem
      refine hnamed.ne hids hplain (h.plain_param y hy) ?_ rfl
      rintro rfl
      exact hnot hy
  · intro x hx
    exact absurd hx (binds.not_memory x)
  · intro x b v hp
    obtain ⟨-, -, -, d, hvalue, harg⟩ := hpending x b v hp
    simp [start, startMachine, hvalue, harg]
  · intro x b v hp hown
    exact absurd (congrArg some (hpending x b v hp).2.1) hown
  · intro x b v hp _
    obtain ⟨-, -, -, d, hvalue, -⟩ := hpending x b v hp
    simp [startMachine, hvalue]
  · intro x b v hp
    obtain ⟨hx, -, hids, -⟩ := hpending x b v hp
    exact ⟨h.plain_param x hx, hids⟩
  · intro v n hv hn
    rw [hvalues v, entry, ValueId.plain?_of_counter hv]
    · rfl
    · intro hmem
      obtain ⟨x, hx, hids⟩ := binds.ofVar v hmem
      have := hids.below (h.plain_param x hx) n hv
      omega

end Function.LoopFree

/-- The operator of a function does what the function does. -/
theorem Emitted.invoke_eq {f : Function} {op : Operator} (h : Emitted f op) (free : f.LoopFree)
    (I : Interp D) (outer : String → Option D) (args : List D) :
    op.invoke I (f.entry outer) args = f.invoke I outer args := by
  cases h with
  | @intro s t u ty formals inside own placed bind inner =>
    have binds := Lower.binds_of_bindParams bind
    have hcount : formals.length = f.params.names.length := by
      rw [← List.length_map (f := Prod.fst), binds.length]
      rfl
    rw [Region.single, Operator.invoke, Function.invoke, hcount]
    split
    · rename_i hlen
      have hsite : t.inFunction = true := by
        simp [State.inFunction, State.site, binds.entry.2.2.2.1]
      have hmatch := inner.simulates (I := I) (binds.placed placed) hsite free.body
        (free.localNames outer) (fun x hx => ⟨trivial, (Scope.home_eq_memory _ _).mp hx⟩)
        (free.agrees binds outer hlen _)
      exact hmatch.observed fun a m h => h.trace
    · rfl

def Stmt.function? : Stmt → Option Function
  | mk (.functionDef name params body _ _) _ => some ⟨name, params, body⟩
  | _ => none

private theorem Function.LoopFree.no_offence {f : Function} (h : f.LoopFree) {st : Stmt}
    (hst : st.function? = some f) (site : Site) : st.offence? site = none := by
  obtain ⟨form, span⟩ := st
  cases form <;> simp [Stmt.function?] at hst
  subst hst
  rw [Stmt.offence?, Params.head?_offences, h.accepted, Stmt.firstOffence?_of_loopFree _ _ h.body]
  rfl

/-- A module of functions without loops is accepted. In every accepted module, nested definitions
included, the operator of each function without loops has the trace and the outcome of the function, for
every interpretation, all outer names and all arguments. -/
theorem lower_preserves_meaning (stmts : List Stmt) :
    ((∀ st ∈ stmts, ∃ f, st.function? = some f ∧ f.LoopFree) →
      ∃ op, (SourceUnit.module stmts).lower = .ok op) ∧
    ∀ op, (SourceUnit.module stmts).lower = .ok op →
      List.Forall₂ (fun f o => f.LoopFree →
        ∀ (D : Type u) (I : Interp D) (outer : String → Option D) (args : List D),
          o.invoke I (f.entry outer) args = f.invoke I outer args)
        (Stmt.functionsAll stmts) op.functions := by
  constructor
  · intro h
    apply SourceUnit.lower_of_no_offence
    apply Stmt.firstOffence?_of_all
    intro st hst
    obtain ⟨f, hf, free⟩ := h st hst
    exact free.no_offence hf _
  · intro op accepted
    exact (SourceUnit.functions_of_lower accepted).imp fun f o h free D I outer args =>
      h.invoke_eq free I outer args

/-- Whole numbers, of which all but zero are true. -/
def Interp.whole : Interp Int where
  constant l _ :=
    match l with
    | .int n => n
    | _ => 0
  unary _ a := -a
  binary op a b :=
    match op with
    | .add => a + b
    | .mult => a * b
    | _ => a - b
  connective _ a b := a * b
  comparison _ a b := if a < b then 1 else 0
  call _ _ args := args.sum
  truth a := a ≠ 0

/-- A function that assigns to a variable before a branch and in one arm, and updates it in the other. -/
def branchingUpdate : Function where
  name := "f"
  params := { plain := [⟨"c", none⟩, ⟨"a", none⟩] }
  body :=
    [.assign "b" (.binOp (.ofName "a") .add (.ofName "g")),
      .ifElse (.ofName "c") [.assign "b" (.ofInt 7)] [.augAssign "b" .mult (.ofName "a")],
      .expr (.ofName "b"), .ret (some (.binOp (.ofName "b") .add (.ofInt 1)))]

theorem branchingUpdate_preserved :
    ∃ op o, (SourceUnit.module [.function "f" branchingUpdate.params.plain none
        branchingUpdate.body]).lower = .ok op ∧ op.functions = [o] ∧
      (∀ outer args, o.invoke .whole (branchingUpdate.entry outer) args =
        branchingUpdate.invoke .whole outer args) ∧
      branchingUpdate.invoke .whole (fun _ => some 10) [1, 2] = some ([7], .returned (some 8)) ∧
      branchingUpdate.invoke .whole (fun _ => some 10) [0, 2] = some ([24], .returned (some 25)) ∧
      branchingUpdate.invoke .whole (fun _ => none) [0, 2] = none := by
  have hnames : branchingUpdate.params.names ++
      Act.namesAll (Stmt.actsAll true branchingUpdate.body) =
        ["c", "a", "a", "g", "b", "c", "b", "a", "b", "b", "b"] := rfl
  have free : branchingUpdate.LoopFree := by
    refine ⟨rfl, by decide, rfl, ?_⟩
    rw [hnames]
    simp [PlainName]
  obtain ⟨haccepted, hmeaning⟩ := lower_preserves_meaning
    [.function "f" branchingUpdate.params.plain none branchingUpdate.body]
  obtain ⟨op, accepted⟩ := haccepted (by
    intro st hst
    rw [List.mem_singleton.mp hst]
    exact ⟨branchingUpdate, rfl, free⟩)
  have hone := hmeaning op accepted
  rw [show Stmt.functionsAll [.function "f" branchingUpdate.params.plain none branchingUpdate.body] =
    [branchingUpdate] from rfl] at hone
  obtain ⟨o, others, hsame, hnil, hfunctions⟩ := List.forall₂_cons_left_iff.mp hone
  rw [List.forall₂_nil_left_iff] at hnil
  subst hnil
  exact ⟨op, o, accepted, hfunctions, hsame free Int .whole, rfl, rfl, rfl⟩

end RegionIR
