import RegionIR.Proofs.Functions
import RegionIR.Proofs.Names
import RegionIR.Tree.Build
/-!
# When a variable moves to memory

A variable of a scope stays a value as long as it is bound at most once and never touched. Otherwise
every one of its bindings is a store, the first one included, and it is loaded by each read that comes
after the access that moved it.
-/
namespace RegionIR

namespace Access

/-- The accesses that come after a variable has moved to memory: after the first touch, or after the
second binding. `bound` says whether it has been bound already. -/
def afterMove (a : String) : (bound : Bool) → List Access → List Access
  | _, [] => []
  | bound, read _ :: rest => afterMove a bound rest
  | bound, touch x :: rest => if x = a then rest else afterMove a bound rest
  | bound, bind x :: rest =>
    if x = a then (if bound then rest else afterMove a true rest) else afterMove a bound rest

def writes (a : String) (acc : Access) : Bool := acc = bind a ∨ acc = touch a

end Access

namespace Head

def accessed? (h : Head) : Option String :=
  match h.attrs.get? "name" with
  | some (.text x) => some x
  | _ => none

def isStore (a : String) (h : Head) : Bool :=
  h.dialect = .py ∧ h.name = "store" ∧ h.accessed? = some a

def isLoad (a : String) (h : Head) : Bool :=
  h.dialect = .py ∧ h.name = "load" ∧ h.accessed? = some a

/-- The operator defines a value of the variable: its result is `%a` or `%a.N`. -/
def defines (a : String) (h : Head) : Bool :=
  (h.name = "assign" ∨ h.name = "cast") ∧ h.results.any fun v =>
    v = .named a ∨ v.counter?.any fun n => v = .versioned a n

end Head

namespace Walk

def owned : Walk Unit Head where
  atOperator _ op := [op.head]
  enters op := op.head.dialect ≠ .builtin

theorem owned_operator (head : Head) (regions : List Region) :
    owned.operator () (.mk head regions) =
      head :: if head.dialect = .builtin then [] else owned.regions () regions := by
  by_cases h : head.dialect = .builtin <;> simp [operator, owned, Operator.head, h]

theorem owned_cons (head : Head) (regions : List Region) (rest : List Operator) :
    owned.items () (.mk head regions :: rest) =
      head :: (if head.dialect = .builtin then [] else owned.regions () regions) ++
        owned.items () rest := by
  rw [items_cons, owned_operator]

@[simp] theorem owned_single (label : Option Label) (ops : List Operator) (rs : List Region) :
    owned.regions () (.single label ops :: rs) = owned.items () ops ++ owned.regions () rs := by
  simp [regions_single, owned]

theorem owned_leaves (hs : List Head) : owned.items () (hs.map .leaf) = hs := by
  rw [items_leaves]
  exact List.flatMap_singleton' hs

end Walk

/-- The operators of the scope that a module or a function owns. -/
def Operator.ownHeads (op : Operator) : List Head := Walk.owned.regions () op.regions

/-- How far a variable has come: not bound yet, bound once, or in memory. -/
inductive Phase where
  | unbound
  | bound
  | moved
  deriving DecidableEq

def Home.phase : Home → Phase
  | .undefined => .unbound
  | .pending _ _ => .bound
  | .memory => .moved

namespace Phase

def step (a : String) : Phase → Access → Phase
  | p, .read _ => p
  | p, .touch x => if x = a then .moved else p
  | p, .bind x =>
    if x = a then
      match p with
      | .unbound => .bound
      | _ => .moved
    else p

/-- Adds up what accesses cost, each at the phase that it finds. -/
def scan (a : String) (cost : Phase → Access → Nat) : Phase → List Access → Nat
  | _, [] => 0
  | p, acc :: rest => cost p acc + scan a cost (p.step a acc) rest

def loadCost (a : String) (p : Phase) (acc : Access) : Nat := if p = .moved ∧ acc = .read a then 1 else 0

def definitionCost (a : String) (p : Phase) (acc : Access) : Nat :=
  if p = .unbound ∧ acc = .bind a then 1 else 0

variable (a : String)

private theorem scan_append (cost : Phase → Access → Nat) (p : Phase) (xs ys : List Access) :
    scan a cost p (xs ++ ys) = scan a cost p xs + scan a cost (xs.foldl (step a) p) ys := by
  induction xs generalizing p with
  | nil => simp [scan]
  | cons x xs ih => rw [List.cons_append, scan, scan, ih, List.foldl_cons, Nat.add_assoc]

private theorem foldl_step_reads (p : Phase) (names : List String) :
    (names.map Access.read).foldl (step a) p = p := by
  induction names with
  | nil => rfl
  | cons name names ih => simpa [step] using ih

private theorem scan_definition_reads (p : Phase) (names : List String) :
    scan a (definitionCost a) p (names.map Access.read) = 0 := by
  induction names with
  | nil => rfl
  | cons name names ih => simpa [scan, step, definitionCost] using ih

private theorem scan_load_reads (p : Phase) (names : List String) :
    scan a (loadCost a) p (names.map Access.read) = if p = .moved then names.count a else 0 := by
  induction names with
  | nil => simp [scan]
  | cons name names ih =>
    rw [List.map_cons, scan, step, ih, List.count_cons, loadCost]
    by_cases hp : p = .moved <;> by_cases hn : name = a <;> simp [hp, hn, Nat.add_comm]

theorem foldl_step_moved (accs : List Access) : accs.foldl (step a) .moved = .moved := by
  induction accs with
  | nil => rfl
  | cons acc accs ih => cases acc <;> simpa [step] using ih

theorem foldl_step_bound (accs : List Access) : accs.foldl (step a) .bound =
    if accs.count (.bind a) = 0 ∧ accs.count (.touch a) = 0 then .bound else .moved := by
  induction accs with
  | nil => rfl
  | cons acc accs ih =>
    rw [List.foldl_cons]
    cases acc with
    | read x => simpa [step] using ih
    | bind x =>
      by_cases hx : x = a
      · simp [step, hx, foldl_step_moved]
      · simpa [step, hx] using ih
    | touch x =>
      by_cases hx : x = a
      · simp [step, hx, foldl_step_moved]
      · simpa [step, hx] using ih

/-- A variable that starts unbound is in memory in the end if it is touched or bound twice. -/
theorem foldl_step_unbound (accs : List Access) : accs.foldl (step a) .unbound =
    if accs.count (.bind a) = 0 ∧ accs.count (.touch a) = 0 then .unbound
    else if accs.count (.bind a) = 1 ∧ accs.count (.touch a) = 0 then .bound else .moved := by
  induction accs with
  | nil => rfl
  | cons acc accs ih =>
    rw [List.foldl_cons]
    cases acc with
    | read x => simpa [step] using ih
    | bind x =>
      by_cases hx : x = a
      · simp [step, hx, foldl_step_bound]
      · simpa [step, hx] using ih
    | touch x =>
      by_cases hx : x = a
      · simp [step, hx, foldl_step_moved]
      · simpa [step, hx] using ih

private theorem scan_load_moved (accs : List Access) :
    scan a (loadCost a) .moved accs = accs.count (.read a) := by
  induction accs with
  | nil => rfl
  | cons acc accs ih =>
    have hstep : step a .moved acc = .moved := foldl_step_moved a [acc]
    rw [scan, hstep, ih, List.count_cons, loadCost, Nat.add_comm]
    simp

private theorem scan_load (bound : Bool) (accs : List Access) :
    scan a (loadCost a) (if bound then .bound else .unbound) accs =
      (Access.afterMove a bound accs).count (.read a) := by
  induction accs generalizing bound with
  | nil => rfl
  | cons acc accs ih =>
    have hfalse := ih false
    have htrue := ih true
    have hmoved := scan_load_moved a accs
    cases acc with
    | read x => cases bound <;> simp_all [scan, step, loadCost, Access.afterMove]
    | bind x =>
      by_cases hx : x = a <;> cases bound <;> simp_all [scan, step, loadCost, Access.afterMove]
    | touch x =>
      by_cases hx : x = a <;> cases bound <;> simp_all [scan, step, loadCost, Access.afterMove]

private theorem scan_load_of_not_moved {p : Phase} {accs : List Access}
    (h : accs.foldl (step a) p ≠ .moved) :
    scan a (loadCost a) p accs = 0 := by
  induction accs generalizing p with
  | nil => rfl
  | cons acc accs ih =>
    have hp : p ≠ .moved := by
      rintro rfl
      exact h (foldl_step_moved a _)
    rw [scan, ih h, loadCost, if_neg fun hc => hp hc.1]

private theorem scan_definition_of_ne {p : Phase} (hp : p ≠ .unbound) (accs : List Access) :
    scan a (definitionCost a) p accs = 0 := by
  induction accs generalizing p with
  | nil => rfl
  | cons acc accs ih =>
    have hstep : step a p acc ≠ .unbound := by
      cases acc with
      | read x => simpa [step] using hp
      | bind x =>
        by_cases hx : x = a
        · cases p <;> simp [step, hx]
        · simpa [step, hx] using hp
      | touch x =>
        by_cases hx : x = a
        · simp [step, hx]
        · simpa [step, hx] using hp
    rw [scan, ih hstep, definitionCost, if_neg fun h => hp h.1]

private theorem scan_definition (accs : List Access) : scan a (definitionCost a) .unbound accs =
    if accs.find? (Access.writes a) = some (.bind a) then 1 else 0 := by
  induction accs with
  | nil => rfl
  | cons acc accs ih =>
    cases acc with
    | read x => simpa [scan, step, definitionCost, Access.writes] using ih
    | bind x =>
      by_cases hx : x = a
      · simp [scan, step, definitionCost, Access.writes, hx, scan_definition_of_ne]
      · simpa [scan, step, definitionCost, Access.writes, hx] using ih
    | touch x =>
      by_cases hx : x = a
      · simp [scan, step, definitionCost, Access.writes, hx, scan_definition_of_ne]
      · simpa [scan, step, definitionCost, Access.writes, hx] using ih

end Phase

open Operator

section Heads

variable (a : String)

@[simp] theorem isStore_storeHead (name : String) (value : ValueId) (ty : Ty) :
    (storeHead name value ty).isStore a = decide (name = a) := by
  simp [Head.isStore, Head.accessed?, storeHead]

@[simp] theorem isLoad_loadHead (name : String) (value : ValueId) (ty : Ty) :
    (loadHead name value ty).isLoad a = decide (name = a) := by
  simp [Head.isLoad, Head.accessed?, loadHead]

theorem Head.counts_of_notMem {h : Head} (hh : h.name ∉ binding) :
    h.isStore a = false ∧ h.isLoad a = false ∧ h.defines a = false := by
  simp only [binding, List.mem_cons, List.not_mem_nil, or_false, not_or] at hh
  simp [Head.isStore, Head.isLoad, Head.defines, hh]

theorem Head.Computes.notMem_binding {h : Head} (computes : h.Computes) (value : ValueId) (ty : Ty) :
    (h.withResult value ty).name ∉ binding := by
  intro hmem
  have hname := computes.name
  simp only [Head.withResult_name] at hmem
  simp only [computing, binding, List.mem_cons, List.not_mem_nil, or_false] at hname hmem
  rcases hname with hn | hn | hn | hn | hn | hn <;> simp [hn] at hmem

private theorem Retro.countP_isStore {P : String → ValueId → Prop} {ls : List Late} (retro : Retro P ls)
    [Decidable (∃ v, P a v)] :
    (ls.map Late.head).countP (Head.isStore a) = if ∃ v, P a v then 1 else 0 := by
  have hcount : (ls.map Late.head).countP (Head.isStore a) = (ls.map Prod.fst).count a := by
    rw [List.countP_map, List.count, List.countP_map]
    refine List.countP_congr fun l _ => ?_
    simp [Late.head]
  rw [hcount, retro.nodup.count]
  refine if_congr ?_ rfl rfl
  simp only [List.mem_map, Prod.exists, exists_and_right, exists_eq_right]
  constructor
  · rintro ⟨v, ty, h⟩
    exact ⟨v, (retro.mem a v).mp ⟨ty, h⟩⟩
  · rintro ⟨v, h⟩
    exact ⟨v, (retro.mem a v).mpr h⟩

private theorem Late.countP_others (ls : List Late) :
    (ls.map Late.head).countP (Head.isLoad a) = 0 ∧ (ls.map Late.head).countP (Head.defines a) = 0 := by
  constructor <;>
  · rw [List.countP_eq_zero]
    intro h hh
    obtain ⟨l, -, rfl⟩ := List.mem_map.mp hh
    simp [Late.head, storeHead, Head.isLoad, Head.defines]

end Heads

/-- Operators load and define a variable as its accesses ask for, from the home `before` to the home
`after`. -/
structure Counts (a : String) (before after : Home) (accs : List Access) (heads : List Head) :
    Prop where
  phase : after.phase = accs.foldl (Phase.step a) before.phase
  loads : heads.countP (Head.isLoad a) = Phase.scan a (Phase.loadCost a) before.phase accs
  definitions : PlainName a → (∀ x, .bind x ∈ accs → PlainName x) →
    heads.countP (Head.defines a) = Phase.scan a (Phase.definitionCost a) before.phase accs

namespace Counts

variable {a : String} {h₀ h₁ h₂ : Home} {xs ys : List Access} {hs ks : List Head}

theorem trans (h : Counts a h₀ h₁ xs hs) (h' : Counts a h₁ h₂ ys ks) :
    Counts a h₀ h₂ (xs ++ ys) (hs ++ ks) where
  phase := by rw [List.foldl_append, ← h.phase, h'.phase]
  loads := by rw [List.countP_append, h.loads, h'.loads, Phase.scan_append, h.phase]
  definitions hplain hall := by
    rw [List.countP_append, h.definitions hplain fun x hx => hall x (List.mem_append_left _ hx),
      h'.definitions hplain fun x hx => hall x (List.mem_append_right _ hx), Phase.scan_append, h.phase]

theorem nil (h : Home) : Counts a h h [] [] := ⟨rfl, rfl, fun _ _ => rfl⟩

theorem congr (h : Counts a h₀ h₁ xs hs)
    (loads : ks.countP (Head.isLoad a) = hs.countP (Head.isLoad a))
    (definitions : ks.countP (Head.defines a) = hs.countP (Head.defines a)) :
    Counts a h₀ h₁ xs ks :=
  ⟨h.phase, loads.trans h.loads, fun ha hall => definitions.trans (h.definitions ha hall)⟩

end Counts

private theorem Flat.counts {s t : State} {reads : List String} {hs : List Head} {pool : List ValueId}
    (flat : Flat s reads hs pool t) (a : String) :
    Counts a (s.home a) (s.home a) (reads.map .read) hs ∧ hs.countP (Head.isStore a) = 0 := by
  have hcounts : hs.countP (Head.isLoad a) = (if s.home a = .memory then reads.count a else 0) ∧
      hs.countP (Head.defines a) = 0 ∧ hs.countP (Head.isStore a) = 0 := by
    induction flat with
    | start => simp
    | @load reads hs _ t name flat home ih =>
      rw [flat.appended.home] at home
      obtain ⟨hloads, hdefs, hstores⟩ := ih
      refine ⟨?_, ?_, ?_⟩
      · rw [List.countP_append, hloads, List.count_append]
        by_cases hn : name = a
        · subst hn
          simp [home]
        · simp [hn]
      · rw [List.countP_append, hdefs]
        simp [loadHead, Head.defines]
      · rw [List.countP_append, hstores]
        simp [loadHead, Head.isStore]
    | @value reads hs _ t name flat home ih =>
      rw [flat.appended.home] at home
      refine ⟨?_, ih.2⟩
      rw [ih.1, List.count_append]
      by_cases hn : name = a
      · subst hn
        simp [home]
      · simp [hn]
    | @op _ _ _ t h ty flat computes known ih =>
      obtain ⟨hstore, hload, hdef⟩ :=
        Head.counts_of_notMem a (computes.notMem_binding (.numbered t.counter) ty)
      simp only [List.countP_append, List.countP_singleton, hstore, hload, hdef]
      simpa using ih
    | drop flat known used ih => exact ih
  obtain ⟨hloads, hdefs, hstores⟩ := hcounts
  refine ⟨⟨?_, ?_, ?_⟩, hstores⟩
  · rw [Phase.foldl_step_reads]
  · rw [hloads, Phase.scan_load_reads]
    cases s.home a <;> simp [Home.phase]
  · intro _ _
    rw [hdefs, Phase.scan_definition_reads]

namespace Home

/-- A definition in the block `block` that no store has been put in for, up to the end of that block:
it is still to come if the variable is in memory in the end (`Z`) and the value is in an inner block. -/
def debt (a : String) (Z : List String) (block : Nat) : Home → Home → Nat
  | undefined, pending p _ => if p ≠ block ∧ a ∈ Z then 0 else 1
  | _, _ => 0

/-- The store that is put into the block for a value that it holds. -/
def paid (block : Nat) : Home → Home → Nat
  | pending p _, memory => if p = block then 1 else 0
  | _, _ => 0

def Moves (before after : Home) : Prop := before = undefined ∨ after = before ∨ after = memory

end Home

private theorem Extends.moves {own : Option Nat} {s t : State} (h : Extends own s t) (a : String) :
    (s.home a).Moves (t.home a) := by
  cases hs : s.home a with
  | undefined => exact .inl rfl
  | pending b v =>
    rcases h.pending a b v hs with ht | ht
    · exact .inr (.inl ht)
    · exact .inr (.inr ht)
  | memory => exact .inr (.inr (h.memory a hs))

namespace Home

variable {a : String} {Z : List String} {c : Nat} {h₀ h₁ h₂ : Home} {m n b b' : Nat}

@[simp] theorem debt_self (h : Home) : debt a Z c h h = 0 := by cases h <;> rfl

@[simp] theorem paid_self (h : Home) : paid c h h = 0 := by cases h <;> rfl

@[simp] theorem debt_memory (h : Home) : debt a Z c h memory = 0 := by cases h <;> rfl

private theorem Moves.eq_memory (h : memory.Moves h₂) : h₂ = memory := by
  simpa [Moves] using h

private theorem stores_trans (h₀₁ : h₀.Moves h₁) (h₁₂ : h₁.Moves h₂) (moved : h₂ = memory → a ∈ Z)
    (first : m + debt a Z c h₀ h₁ = b + paid c h₀ h₁)
    (second : n + debt a Z c h₁ h₂ = b' + paid c h₁ h₂) :
    m + n + debt a Z c h₀ h₂ = b + b' + paid c h₀ h₂ := by
  rcases h₀₁ with rfl | rfl | rfl
  · rcases h₁₂ with rfl | rfl | rfl
    · rw [debt_self, paid_self] at first
      omega
    · rw [debt_self, paid_self] at second
      omega
    · -- defined in the first stretch, moved in the second: the store is put in by the holding block
      have ha := moved rfl
      rw [debt_memory] at second ⊢
      cases h₁ with
      | undefined | memory => simp_all [debt, paid]
      | pending p v =>
        have hdebt : debt a Z c undefined (pending p v) = paid c (pending p v) memory := by
          by_cases hp : p = c <;> simp [debt, paid, hp, ha]
        rw [hdebt, show paid c undefined (pending p v) = 0 from rfl] at first
        rw [show paid c undefined memory = 0 from rfl]
        omega
  · rw [debt_self, paid_self] at first
    omega
  · obtain rfl := h₁₂.eq_memory
    rw [debt_self, paid_self] at second
    omega

/-- Stores of a region: those of its block, and the one that is put in after it has been left. -/
theorem stores_region {q : Nat} (h₀₁ : h₀.Moves h₁) (older : ∀ v, h₀ ≠ pending q v)
    (inner : ∀ p v, h₀ = undefined → h₁ = pending p v → p ≠ c)
    (block : n + debt a Z q h₀ h₁ = b + paid q h₀ h₁) [Decidable (∃ v, h₁ = pending q v ∧ a ∈ Z)] :
    n + (if ∃ v, h₁ = pending q v ∧ a ∈ Z then 1 else 0) + debt a Z c h₀ h₁ = b := by
  have hpaid : paid q h₀ h₁ = 0 := by
    cases h₀ with
    | undefined | memory => rfl
    | pending p v =>
      have hp : p ≠ q := fun h => older v (by rw [h])
      cases h₁ <;> simp [paid, hp]
  rw [hpaid] at block
  rcases h₀₁ with rfl | rfl | rfl
  · cases h₁ with
    | undefined | memory => simpa [debt] using block
    | pending p v =>
      have hp := inner p v rfl rfl
      by_cases hq : p = q <;> by_cases ha : a ∈ Z <;> simp_all [debt]
  · simpa [older] using block
  · simpa using block

private theorem stores_regions (h₀₁ : h₀.Moves h₁) (h₁₂ : h₁.Moves h₂) (moved : h₂ = memory → a ∈ Z)
    (inner : ∀ p v, h₀ = undefined → h₁ = pending p v → p ≠ c)
    (first : m + debt a Z c h₀ h₁ = b) (second : n + debt a Z c h₁ h₂ = b') :
    m + n + debt a Z c h₀ h₂ = b + b' := by
  rcases h₀₁ with rfl | rfl | rfl
  · rcases h₁₂ with rfl | rfl | rfl
    · rw [debt_self] at first
      omega
    · rw [debt_self] at second
      omega
    · have hnone : debt a Z c undefined h₁ = 0 := by
        cases h₁ with
        | undefined | memory => rfl
        | pending p v => exact if_pos ⟨inner p v rfl rfl, moved rfl⟩
      rw [hnone] at first
      rw [debt_memory] at second ⊢
      omega
  · rw [debt_self] at first
    omega
  · obtain rfl := h₁₂.eq_memory
    rw [debt_self] at second
    omega

private theorem stores_opening (opening : h₁ = h₀ ∨ h₁ = memory) (h₁₂ : h₁.Moves h₂)
    (inner : n + debt a Z c h₁ h₂ = b) : n + debt a Z c h₀ h₂ = b := by
  rcases opening with rfl | rfl
  · exact inner
  · obtain rfl := h₁₂.eq_memory
    simpa using inner

end Home

namespace Write

variable {s t : State} {name : String} {value : ValueId}

private theorem phase_touch (h : Write s name none t) (a : String) :
    (t.home a).phase = (s.home a).phase.step a (.touch name) := by
  by_cases ha : name = a
  · subst ha
    have hmemory : t.home name = .memory := by
      cases h with
      | promote _ _ _ _ _ home => rw [home, if_pos rfl]
      | mark _ _ _ _ _ home => rw [home, if_pos rfl]
      | stay _ before _ _ _ home => rw [home, before]
    simp [hmemory, Home.phase, Phase.step]
  · rw [h.home_of_ne (Ne.symm ha)]
    simp [Phase.step, ha]

private theorem phase_store (h : Write s name none t) (known : s.home name ≠ .undefined) (a : String) :
    (t.home a).phase = (s.home a).phase.step a (.bind name) := by
  rw [h.phase_touch a]
  by_cases ha : name = a
  · subst ha
    cases hs : s.home name with
    | undefined => exact absurd hs known
    | pending b v => simp [Home.phase, Phase.step]
    | memory => simp [Home.phase, Phase.step]
  · simp [Phase.step, ha]

theorem defined (h : Write s name (some value) t) : s.home name = .undefined ∧
    t.home name = .pending s.current value ∧ Fresh s name value t := by
  cases h with
  | define _ before _ fresh home => exact ⟨before, by rw [home, if_pos rfl], fresh⟩

private theorem phase_define (h : Write s name (some value) t) (a : String) :
    (t.home a).phase = (s.home a).phase.step a (.bind name) := by
  by_cases ha : name = a
  · subst ha
    obtain ⟨before, after, -⟩ := h.defined
    simp [before, after, Home.phase, Phase.step]
  · rw [h.home_of_ne (Ne.symm ha)]
    simp [Phase.step, ha]

end Write

/-- The id of a definition belongs to its variable and to no other. -/
theorem Fresh.belongs {s t : State} {name : String} {value : ValueId} (h : Fresh s name value t)
    {a : String} (ha : PlainName a) (hname : PlainName name) :
    (decide (value = .named a ∨ value.counter?.any fun n => value = .versioned a n)) =
      decide (name = a) := by
  cases h with
  | plain _ _ _ => simp [ValueId.counter?_named hname, ValueId.named_injective.eq_iff]
  | version _ _ _ =>
    have hne : ValueId.versioned name s.counter ≠ .named a := (ValueId.named_ne_versioned ha _ _).symm
    simp [hne, ValueId.versioned_inj]

private theorem Settles.counts {m t : State} {args : List ValueId} {writes : List Act} {own : Head}
    (h : Settles m args writes own t) (a : String) (Z : List String) :
    Counts a (m.home a) (t.home a) (Act.accessesAll writes) [own] ∧
      [own].countP (Head.isStore a) + Home.debt a Z m.current (m.home a) (t.home a) =
        (Act.accessesAll writes).count (.bind a) := by
  cases h with
  | plain quiet _ =>
    obtain ⟨hstore, hload, hdef⟩ := Head.counts_of_notMem a quiet.name
    refine ⟨⟨rfl, ?_, ?_⟩, ?_⟩
    · simp [hload, Act.accessesAll, Phase.scan]
    · simp [hdef, Act.accessesAll, Phase.scan]
    · cases m.home a <;> simp [hstore, Act.accessesAll, Home.debt]
  | @define _ name value _ dialect opcode results _ write =>
    obtain ⟨before, after, fresh⟩ := write.defined
    have hstore : own.isStore a = false := by
      rcases opcode with h | h <;> simp [Head.isStore, h]
    have hload : own.isLoad a = false := by
      rcases opcode with h | h <;> simp [Head.isLoad, h]
    refine ⟨⟨?_, ?_, ?_⟩, ?_⟩
    · simpa [Act.accessesAll, Act.accesses] using write.phase_define a
    · simp [hload, Act.accessesAll, Act.accesses, Phase.scan, Phase.loadCost]
    · intro ha hall
      have hname : PlainName name := hall name (by simp [Act.accessesAll, Act.accesses])
      have hdef : own.defines a = decide (name = a) := by
        rw [← fresh.belongs ha hname]
        rcases opcode with h | h <;> simp [Head.defines, h, results]
      by_cases hn : name = a
      · subst hn
        simp [hdef, Act.accessesAll, Act.accesses, Phase.scan, Phase.definitionCost, before, Home.phase]
      · simp [hdef, Act.accessesAll, Act.accesses, Phase.scan, Phase.definitionCost, hn]
    · by_cases hn : name = a
      · subst hn
        simp [hstore, before, after, Home.debt, Act.accessesAll, Act.accesses]
      · rw [write.home_of_ne (Ne.symm hn)]
        cases m.home a <;> simp [hstore, Home.debt, Act.accessesAll, Act.accesses, hn]
  | @store name x ty _ _ known write =>
    refine ⟨⟨?_, ?_, ?_⟩, ?_⟩
    · simpa [Act.accessesAll, Act.accesses] using write.phase_store known a
    · simp [storeHead, Head.isLoad, Act.accessesAll, Act.accesses, Phase.scan, Phase.loadCost]
    · intro _ _
      by_cases hn : name = a
      · subst hn
        have hphase : (m.home name).phase ≠ .unbound := by
          cases hm : m.home name <;> simp_all [Home.phase]
        simp [storeHead, Head.defines, Act.accessesAll, Act.accesses, Phase.scan,
          Phase.definitionCost, hphase]
      · simp [storeHead, Head.defines, Act.accessesAll, Act.accesses, Phase.scan,
          Phase.definitionCost, hn]
    · by_cases hn : name = a
      · subst hn
        cases hm : m.home name with
        | undefined => exact absurd hm known
        | pending b v => simp [Home.debt, Act.accessesAll, Act.accesses]
        | memory => simp [Home.debt, Act.accessesAll, Act.accesses]
      · rw [write.home_of_ne (Ne.symm hn)]
        cases m.home a <;> simp [Home.debt, Act.accessesAll, Act.accesses, hn]
  | @through _ name _ quiet _ write =>
    obtain ⟨hstore, hload, hdef⟩ := Head.counts_of_notMem a quiet.name
    refine ⟨⟨?_, ?_, ?_⟩, ?_⟩
    · simpa [Act.accessesAll, Act.accesses] using write.phase_touch a
    · simp [hload, Act.accessesAll, Act.accesses, Phase.scan, Phase.loadCost]
    · simp [hdef, Act.accessesAll, Act.accesses, Phase.scan, Phase.definitionCost]
    · have hphase := write.phase_touch a
      by_cases hn : name = a
      · cases hm : m.home a <;> cases ht : t.home a <;>
          simp_all [Home.debt, Act.accessesAll, Act.accesses, Home.phase, Phase.step]
      · rw [write.home_of_ne (Ne.symm hn)]
        cases m.home a <;> simp [hstore, Home.debt, Act.accessesAll, Act.accesses]

private theorem Retro.countP_paid {s t : State} {block : Nat} {ls : List Late}
    (retro : Retro (fun a v => s.home a = .pending block v ∧ t.home a = .memory) ls) (a : String) :
    (ls.map Late.head).countP (Head.isStore a) = Home.paid block (s.home a) (t.home a) := by
  classical
  rw [retro.countP_isStore a]
  cases s.home a <;> cases t.home a <;> simp [Home.paid]

private theorem Opening.counts {s m : State} {pre : List Act} {hs : List Head} {slots : List Slot}
    {regions : List Region} {args : List ValueId} (h : Opening s pre hs slots regions args m)
    (a : String) :
    Counts a (s.home a) (m.home a) (Act.accessesAll pre) (hs ++ Walk.owned.regions () regions) ∧
      (hs ++ Walk.owned.regions () regions).countP (Head.isStore a) = 0 ∧
      (Act.accessesAll pre).count (.bind a) = 0 ∧ (m.home a = s.home a ∨ m.home a = .memory) := by
  cases h with
  | @inline reads hs _ _ flat =>
    obtain ⟨hcounts, hstores⟩ := flat.counts a
    rw [flat.appended.home, Act.accessesAll_reads, Walk.regions_nil, List.append_nil]
    exact ⟨hcounts, hstores, by simp [List.count_eq_zero], .inl rfl⟩
  | @loop reads hs x u v _ writes flat leave written =>
    obtain ⟨hcounts, hstores⟩ := flat.counts a
    obtain ⟨-, -, hhome⟩ := flat.yields leave
    obtain ⟨hyield, hyield', hyield''⟩ := Head.counts_of_notMem a
      (show (yieldHead x).name ∉ binding by simp [yieldHead, binding])
    have hregion : Walk.owned.regions () [yieldRegion hs x] = hs ++ [yieldHead x] := by
      rw [yieldRegion, Walk.owned_single, Walk.owned_leaves, Walk.regions_nil,
        List.append_nil]
    have hline : Counts a (s.home a) (v.home a) (reads.map .read) (hs ++ [yieldHead x]) := by
      rw [hhome]
      exact hcounts.congr (by simp [hyield']) (by simp [hyield''])
    have hwrite : Counts a (v.home a) (m.home a) (Act.accessesAll writes) [] ∧
        (Act.accessesAll writes).count (.bind a) = 0 ∧ (m.home a = v.home a ∨ m.home a = .memory) := by
      obtain ⟨rfl, rfl⟩ | ⟨name, rfl, write⟩ := written
      · exact ⟨.nil _, by simp [Act.accessesAll], .inl rfl⟩
      · have hphase := write.phase_touch a
        refine ⟨⟨by simpa [Act.accessesAll, Act.accesses] using hphase, ?_, ?_⟩, ?_, ?_⟩
        · simp [Act.accessesAll, Act.accesses, Phase.scan, Phase.loadCost]
        · simp [Act.accessesAll, Act.accesses, Phase.scan, Phase.definitionCost]
        · simp [Act.accessesAll, Act.accesses]
        · by_cases hn : name = a
          · subst hn
            cases hm : m.home name <;> simp_all [Home.phase, Phase.step]
          · exact .inl (write.home_of_ne (Ne.symm hn))
    obtain ⟨hwrite, hbinds, hmoves⟩ := hwrite
    rw [hhome] at hmoves
    rw [hregion, Act.accessesAll, Act.accesses, Act.accessesAll_reads, List.nil_append]
    refine ⟨by simpa using hline.trans hwrite, ?_, ?_, hmoves⟩
    · simp [hstores, hyield]
    · rw [List.count_append, hbinds]
      simp [List.count_eq_zero]

mutual

/-- The loads, definitions and stores of a variable among the operators that statements grow. -/
theorem Grows.tally : ∀ {Z : List String} {s s' : State} {stmts : List Stmt} {ops : List Operator},
    Grows Z s stmts s' ops → s.Placed → ∀ a : String, (s'.home a = .memory → a ∈ Z) →
    Counts a (s.home a) (s'.home a) (Act.accessesAll (Stmt.actsAll s.inFunction stmts))
        (Walk.owned.items () ops) ∧
      (Walk.owned.items () ops).countP (Head.isStore a) +
          Home.debt a Z s.current (s.home a) (s'.home a) =
        (Act.accessesAll (Stmt.actsAll s.inFunction stmts)).count (.bind a) +
          Home.paid s.current (s.home a) (s'.home a)
  | _, s, _, _, _, .nil, _, a, _ => by
    refine ⟨.nil _, ?_⟩
    cases s.home a <;> simp [Walk.items_nil, Stmt.actsAll, Act.accessesAll, Home.debt, Home.paid]
  | Z, s, s', _, _, @Grows.simple _ _ t _ st own stmts hs ops one gains rest, placed, a, moved => by
    obtain ⟨s₀, reads, hs', args, m, writes, ls, rfl, same, flat, settles, acts, retro⟩ :=
      one.gained placed gains
    have hext := one.extension
    have hnext := hext.emitted (.ofHead own)
    obtain ⟨hrest, hstores⟩ := rest.tally (placed.extension hnext) a moved
    obtain ⟨hline, hline'⟩ := flat.counts a
    obtain ⟨hown, hown'⟩ := settles.counts a Z
    obtain ⟨hlate, hlate'⟩ := Late.countP_others a ls
    have hcur : m.current = s.current := by rw [flat.appended.current, same.current]
    rw [flat.appended.home, same.home] at hown hown'
    rw [same.home] at hline
    rw [hcur] at hown'
    rw [State.inFunction_congr s hnext.sites] at hrest hstores
    have hheads : Walk.owned.items () ((hs' ++ ls.map Late.head).map leaf ++ leaf own :: ops) =
        hs' ++ ls.map Late.head ++ [own] ++ Walk.owned.items () ops := by
      have hcons : leaf own :: ops = [own].map leaf ++ ops := rfl
      rw [hcons, Walk.items_append, Walk.items_append, Walk.owned_leaves, Walk.owned_leaves]
      simp
    rw [Stmt.actsAll, acts, Act.accessesAll_append, Act.accessesAll_append, Act.accessesAll_reads, hheads]
    refine ⟨?_, ?_⟩
    · refine ((hline.trans hown).trans hrest).congr ?_ ?_ <;>
        simp only [List.countP_append, hlate, hlate', Nat.add_zero]
    · have hreads : (reads.map Access.read).count (.bind a) = 0 := by simp [List.count_eq_zero]
      have hcount : (hs' ++ ls.map Late.head ++ [own]).countP (Head.isStore a) +
          Home.debt a Z s.current (s.home a) (t.home a) =
          (Act.accessesAll writes).count (.bind a) + Home.paid s.current (s.home a) (t.home a) := by
        rw [List.countP_append, List.countP_append, hline', retro.countP_paid]
        omega
      rw [List.countP_append, List.count_append, List.count_append, hreads, Nat.zero_add]
      rw [hnext.current] at hstores
      exact Home.stores_trans (hext.moves a) (rest.lowers.extension.moves a) moved hcount hstores
  | Z, s, s', _, _, @Grows.compound _ _ t m u _ st own slots more bodies close pre hs regions others
      stmts ls ops opens opened inner retro rest, placed, a, moved => by
    have hopen := opened.opening.extension
    have hbodies := opened.bodies inner.lowers.extension
    have hext := hopen.trans (hbodies.weaken _)
    have hnext := hext.emitted (.ofHead own (slots ++ more))
    have hmoves := rest.lowers.extension.moves a
    have hmoved : (close u).home a = .memory → a ∈ Z := by
      intro hm
      exact moved (rest.lowers.extension.memory a hm)
    obtain ⟨hrest, hstores⟩ := rest.tally (placed.extension hnext) a moved
    obtain ⟨hpre, hpre', hbinds, hhome⟩ := opened.opening.counts a
    obtain ⟨hinner, hinner'⟩ := inner.tally ((placed.extension hopen).sameVars opened.start) a (by
      rw [← (opened.finish u).home]
      exact hmoved)
    obtain ⟨hlate, hlate'⟩ := Late.countP_others a ls
    obtain ⟨hown, hown', hown''⟩ := Head.counts_of_notMem a opened.quiet.name
    rw [opened.start.home, ← (opened.finish u).home] at hinner hinner'
    rw [opened.start.current, hopen.current] at hinner'
    rw [State.inFunction_congr s hnext.sites] at hrest hstores
    have hheads : Walk.owned.items () ((hs ++ ls.map Late.head).map leaf ++
        .mk own (regions ++ others) :: ops) = hs ++ ls.map Late.head ++ [own] ++
          (Walk.owned.regions () regions ++ Walk.owned.regions () others) ++ Walk.owned.items () ops := by
      rw [Walk.items_append, Walk.owned_leaves, Walk.owned_cons, if_neg (by
        simp [opened.quiet.dialect]), Walk.regions_append]
      simp
    rw [Stmt.actsAll, opened.acts hopen.sites, Act.accessesAll_append, Act.accessesAll_append, hheads]
    refine ⟨?_, ?_⟩
    · refine ((hpre.trans hinner).trans hrest).congr ?_ ?_ <;>
        simp only [List.countP_append, List.countP_singleton, hlate, hlate', hown', hown'']
      all_goals simp; omega
    · rw [List.countP_append] at hpre'
      have hopening := Home.stores_opening hhome (hbodies.moves a) hinner'
      have hcount : (hs ++ ls.map Late.head ++ [own] ++ (Walk.owned.regions () regions ++
          Walk.owned.regions () others)).countP (Head.isStore a) +
          Home.debt a Z s.current (s.home a) ((close u).home a) =
          (Act.accessesAll (bodies.map fun body =>
            .nest (Stmt.actsAll t.inFunction body))).count (.bind a) +
          Home.paid s.current (s.home a) ((close u).home a) := by
        simp only [List.countP_append, List.countP_singleton, hown, retro.countP_paid]
        simp only [Bool.false_eq_true, if_false]
        omega
      rw [List.countP_append, List.count_append, List.count_append, hbinds, Nat.zero_add]
      rw [hnext.current] at hstores
      exact Home.stores_trans (hext.moves a) hmoves moved hcount hstores
  | Z, s, s', _, _, @Grows.function _ _ t u v _ name params body stmts decorators returns span formals
      inside ops accepted bind inner leave rest, placed, a, moved => by
    have binds := Lower.binds_of_bindParams bind
    have left := State.left_of_leave? leave
    have hnext := binds.emitted inner.lowers.extension left
      (.ofHead (functionHead name decorators formals (annotatedTy? returns))
        [⟨s.blocks.length, some ⟨entryLabel, formals⟩⟩])
    obtain ⟨hrest, hstores⟩ := rest.tally (placed.extension hnext) a moved
    have hhome : (v.popFunction.emit (.ofHead (functionHead name decorators formals
        (annotatedTy? returns)) [⟨s.blocks.length, some ⟨entryLabel, formals⟩⟩])).home a = s.home a :=
      binds.home_popFunction inner.lowers.extension.toFrame left a
    rw [hhome, State.inFunction_congr s hnext.sites] at hrest hstores
    rw [hnext.current] at hstores
    obtain ⟨hdialect, hname⟩ := functionHead_opcode name decorators formals (annotatedTy? returns)
    obtain ⟨hown, hown', hown''⟩ := Head.counts_of_notMem a (show (functionHead name decorators formals
      (annotatedTy? returns)).name ∉ binding by simp [hname, binding])
    have hacts : Act.accessesAll (Stmt.actsAll s.inFunction
        (.mk (.functionDef name params body decorators returns) span :: stmts)) =
        Act.accessesAll (Stmt.actsAll s.inFunction stmts) := by
      rw [Stmt.actsAll, Stmt.acts, Act.accessesAll_append, Act.accessesAll, Act.accesses, Act.accessesAll]
      rfl
    rw [hacts, Walk.owned_cons, if_pos hdialect]
    refine ⟨hrest.congr ?_ ?_, ?_⟩
    · simp [hown']
    · simp [hown'']
    · simpa [hown] using hstores

theorem GrowsBodies.tally : ∀ {Z : List String} {s s' : State} {bodies : List (List Stmt)}
    {slots : List Slot} {regions : List Region}, GrowsBodies Z s bodies slots s' regions → s.Placed →
    ∀ a : String, (s'.home a = .memory → a ∈ Z) →
    Counts a (s.home a) (s'.home a)
        (Act.accessesAll (bodies.map fun body => .nest (Stmt.actsAll s.inFunction body)))
        (Walk.owned.regions () regions) ∧
      (Walk.owned.regions () regions).countP (Head.isStore a) +
          Home.debt a Z s.current (s.home a) (s'.home a) =
        (Act.accessesAll (bodies.map fun body => .nest (Stmt.actsAll s.inFunction body))).count (.bind a)
  | _, s, _, _, _, _, .nil, _, a, _ => by
    refine ⟨.nil _, ?_⟩
    cases s.home a <;> simp [Walk.regions_nil, Act.accessesAll, Home.debt]
  | Z, s, s', _, _, _, @GrowsBodies.cons _ _ t u _ stmts bodies slots ops ls regions inner leave late
      rest, placed, a, moved => by
    classical
    have left := State.left_of_leave? leave
    have hinside := inner.lowers.extension
    have hregion := hinside.region left
    have hafter := rest.lowers.extension
    obtain ⟨hinner, hinner'⟩ := inner.tally placed.enter a (by
      intro hm
      refine moved (hafter.memory a ?_)
      rw [left.home, hm])
    obtain ⟨hrest, hrest'⟩ := rest.tally (placed.extension (hregion.weaken _)) a moved
    obtain ⟨hlate, hlate'⟩ := Late.countP_others a ls
    rw [State.inFunction_congr s hregion.sites] at hrest hrest'
    rw [hregion.current] at hrest'
    rw [left.home] at hrest hrest'
    have hhome : s.enter.home a = s.home a := rfl
    rw [hhome] at hinner hinner'
    -- a value that is defined in the region is held by a block that is not the one around it
    have hapart : ∀ p v, s.home a = .undefined → t.home a = .pending p v → p ≠ s.current := by
      intro p v hs hp
      have hcur := placed.current_lt
      rw [← left.home] at hp
      rcases hregion.origin a p v hp with h | h | h
      · rw [hs] at h
        exact Home.noConfusion h
      · simp at h
      · omega
    have hfirst := Home.stores_region (hinside.moves a) (fun v hp =>
      absurd (placed.pending a _ v hp) (lt_irrefl _)) hapart hinner'
    rw [List.map_cons, Act.accessesAll, Act.accesses, Walk.owned_single, Walk.items_append,
      Walk.owned_leaves]
    refine ⟨?_, ?_⟩
    · refine (hinner.trans hrest).congr ?_ ?_ <;> simp only [List.countP_append, hlate, hlate', Nat.add_zero]
    · rw [List.countP_append, List.countP_append, late.countP_isStore a, List.count_append]
      refine Home.stores_regions (hinside.moves a) ?_ moved hapart hfirst hrest'
      rw [← left.home]
      exact hafter.moves a

end

namespace Access

/-- The bindings of a variable in a scope; a parameter is bound once, before all others. -/
def bindings (a : String) (params : List String) (accs : List Access) : Nat :=
  (if a ∈ params then 1 else 0) + accs.count (bind a)

end Access

/-- The operators `heads` of a scope keep the variable as a value if it is bound at most once and never
touched. Otherwise they store each of its bindings and load each of its later reads. -/
structure ExactPromotion (params : List String) (accs : List Access) (heads : List Head) (a : String) :
    Prop where
  kept : Access.bindings a params accs ≤ 1 ∧ accs.count (.touch a) = 0 →
    heads.countP (Head.isStore a) = 0 ∧ heads.countP (Head.isLoad a) = 0
  moved : ¬ (Access.bindings a params accs ≤ 1 ∧ accs.count (.touch a) = 0) →
    heads.countP (Head.isStore a) = Access.bindings a params accs ∧
      heads.countP (Head.isLoad a) = (Access.afterMove a (a ∈ params) accs).count (.read a)
  /-- Its values are told apart from those of others if no name looks like a version of another. -/
  definitions : PlainName a → (∀ x, .bind x ∈ accs → PlainName x) →
    heads.countP (Head.defines a) =
      if a ∉ params ∧ accs.find? (Access.writes a) = some (.bind a) then 1 else 0

private theorem ExactPromotion.of_parameter {params : List String} {accs : List Access}
    {heads : List Head} {a : String} {block : Nat} {v : ValueId} {after : Home} (ha : a ∈ params)
    (counts : Counts a (.pending block v) after accs heads)
    (stores : heads.countP (Head.isStore a) =
      accs.count (.bind a) + Home.paid block (.pending block v) after) :
    ExactPromotion params accs heads a := by
  have hphase := counts.phase
  have hmoved := Phase.foldl_step_bound a accs
  have hbindings : Access.bindings a params accs = 1 + accs.count (.bind a) := by
    rw [Access.bindings, if_pos ha]
  refine ⟨?_, ?_, ?_⟩
  · intro hkept
    rw [hbindings] at hkept
    rw [if_pos ⟨by omega, hkept.2⟩] at hmoved
    refine ⟨?_, ?_⟩
    · rw [stores]
      rw [show (Home.pending block v).phase = .bound from rfl, hmoved] at hphase
      cases after with
      | undefined => simp [Home.phase] at hphase
      | pending p w => simp [Home.paid]; omega
      | memory => simp [Home.phase] at hphase
    · rw [counts.loads]
      exact Phase.scan_load_of_not_moved a (by
        rw [show (Home.pending block v).phase = .bound from rfl, hmoved]
        simp)
  · intro hnot
    rw [hbindings] at hnot
    rw [if_neg fun h => hnot ⟨by omega, h.2⟩] at hmoved
    refine ⟨?_, ?_⟩
    · rw [show (Home.pending block v).phase = .bound from rfl, hmoved] at hphase
      cases after with
      | undefined => simp [Home.phase] at hphase
      | pending p w => simp [Home.phase] at hphase
      | memory => rw [stores, hbindings]; simp [Home.paid]; omega
    · rw [counts.loads, decide_eq_true ha]
      exact Phase.scan_load a true accs
  · intro hplain hall
    rw [counts.definitions hplain hall, if_neg fun h => h.1 ha]
    exact Phase.scan_definition_of_ne a (by simp [Home.phase]) accs

private theorem ExactPromotion.of_unbound {params : List String} {accs : List Access} {heads : List Head}
    {a : String} {block : Nat} {Z : List String} {after : Home} (ha : a ∉ params)
    (counts : Counts a .undefined after accs heads) (final : a ∈ Z ↔ after = .memory)
    (stores : heads.countP (Head.isStore a) + Home.debt a Z block .undefined after =
      accs.count (.bind a)) :
    ExactPromotion params accs heads a := by
  have hphase := counts.phase
  have hmoved := Phase.foldl_step_unbound a accs
  have hbindings : Access.bindings a params accs = accs.count (.bind a) := by
    rw [Access.bindings, if_neg ha, Nat.zero_add]
  rw [show Home.undefined.phase = .unbound from rfl] at hphase
  refine ⟨?_, ?_, ?_⟩
  · rintro ⟨hone, hnone⟩
    rw [hbindings] at hone
    have hnot : accs.foldl (Phase.step a) .unbound ≠ .moved := by
      rw [hmoved]
      split
      · simp
      · rw [if_pos ⟨by omega, hnone⟩]
        simp
    refine ⟨?_, ?_⟩
    · cases after with
      | undefined =>
        rw [← hphase] at hmoved
        by_cases hzero : accs.count (.bind a) = 0
        · simp only [Home.debt] at stores
          omega
        · rw [if_neg fun h => hzero h.1, if_pos ⟨by omega, hnone⟩] at hmoved
          simp [Home.phase] at hmoved
      | pending p w =>
        have hz : a ∉ Z := fun h => Home.noConfusion (final.mp h)
        simp only [Home.debt, if_neg fun h : p ≠ block ∧ a ∈ Z => hz h.2] at stores
        omega
      | memory => exact absurd hphase.symm hnot
    · rw [counts.loads]
      exact Phase.scan_load_of_not_moved a hnot
  · intro hnot
    rw [hbindings] at hnot
    rw [if_neg fun h => hnot ⟨by omega, h.2⟩, if_neg fun h => hnot ⟨by omega, h.2⟩] at hmoved
    refine ⟨?_, ?_⟩
    · rw [hmoved] at hphase
      cases after with
      | undefined => simp [Home.phase] at hphase
      | pending p w => simp [Home.phase] at hphase
      | memory =>
        rw [hbindings, ← stores]
        rfl
    · rw [counts.loads, decide_eq_false ha]
      exact Phase.scan_load a false accs
  · intro hplain hall
    rw [counts.definitions hplain hall, show Home.undefined.phase = .unbound from rfl,
      Phase.scan_definition]
    simp [ha]

private theorem Grows.exactPromotion {s s' : State} {stmts : List Stmt} {ops : List Operator}
    (grows : Grows s'.scope.memory s stmts s' ops) (placed : s.Placed) {params : List String}
    {a : String} (home : if a ∈ params then ∃ v, s.home a = .pending s.current v
      else s.home a = .undefined) :
    ExactPromotion params (Act.accessesAll (Stmt.actsAll s.inFunction stmts))
      (Walk.owned.items () ops) a := by
  have hfinal : a ∈ s'.scope.memory ↔ s'.home a = .memory := (Scope.home_eq_memory _ _).symm
  obtain ⟨counts, stores⟩ := grows.tally placed a hfinal.mpr
  by_cases ha : a ∈ params
  · rw [if_pos ha] at home
    obtain ⟨v, hv⟩ := home
    rw [hv] at counts stores
    exact .of_parameter ha counts stores
  · rw [if_neg ha] at home
    rw [home] at counts stores
    exact .of_unbound ha counts hfinal stores

/-- In every scope of a program each variable is promoted exactly when it has to be. -/
theorem promotion_of_variables_exact {stmts : List Stmt} {op : Operator}
    (accepted : (SourceUnit.module stmts).lower = .ok op) (a : String) :
    ExactPromotion [] (Act.accessesAll (Stmt.actsAll false stmts)) op.ownHeads a ∧
      List.Forall₂ (fun f o => ExactPromotion f.params.names
        (Act.accessesAll (Stmt.actsAll true f.body)) o.ownHeads a)
        (Stmt.functionsAll stmts) op.functions := by
  refine ⟨?_, (SourceUnit.functions_of_lower accepted).imp ?_⟩
  · obtain ⟨t, ops, grows, rfl⟩ := SourceUnit.grows_of_lower accepted
    have hheads : ownHeads (.mk (Head.builtin "module") [.single none ops]) = Walk.owned.items () ops := by
      simp [ownHeads, regions, Walk.regions_nil]
    rw [hheads]
    exact grows.exactPromotion State.initial_placed rfl
  · rintro f _ ⟨placed, bind, inner⟩
    rename_i s t u ty formals inside own
    have binds := Lower.binds_of_bindParams bind
    obtain ⟨hcurrent, -, -, hsites, -⟩ := binds.entry
    have hin : t.inFunction = true := by simp [State.inFunction, State.site, hsites]
    have hheads : ownHeads (.mk own [.single (some ⟨entryLabel, formals⟩) inside]) =
        Walk.owned.items () inside := by
      simp [ownHeads, regions, Walk.regions_nil]
    rw [hheads, ← hin]
    refine inner.exactPromotion (binds.placed placed) ?_
    have hhome : if a ∈ f.params.names then ∃ v ∈ formals.map Prod.fst,
        t.home a = .pending s.blocks.length v else t.home a = .undefined := binds.entry_home a
    rw [hcurrent]
    split at hhome
    · rename_i ha
      obtain ⟨v, -, hv⟩ := hhome
      rw [if_pos ha]
      exact ⟨v, hv⟩
    · rename_i ha
      rw [if_neg ha, hhome]

/-- A function that assigns its parameter in a branch, and a name that it binds once. -/
def reassignedParameterProgram : List Stmt :=
  [.function "f" [⟨"x", none⟩] none
    [.assign "y" (.ofName "x"), .ifElse (.ofName "y") [.assign "x" (.ofName "y")] [],
      .ret (some (.ofName "x"))]]

theorem reassignedParameterProgram_promotion :
    ∃ op f, (SourceUnit.module reassignedParameterProgram).lower = .ok op ∧ op.functions = [f] ∧
      f.ownHeads.countP (Head.isStore "x") = 2 ∧ f.ownHeads.countP (Head.isLoad "x") = 1 ∧
      f.ownHeads.countP (Head.isStore "y") = 0 := by
  obtain ⟨op, accepted, hview⟩ := SourceUnit.exists_of_view
    (show (SourceUnit.module reassignedParameterProgram).lower.toOption.map
      (fun op => op.functions.length) = some 1 by decide +kernel)
  obtain ⟨f, hf⟩ := List.length_eq_one_iff.mp hview
  have hx := (promotion_of_variables_exact accepted "x").2
  have hy := (promotion_of_variables_exact accepted "y").2
  rw [hf] at hx hy
  cases hx with
  | cons hx _ =>
    cases hy with
    | cons hy _ =>
      have hmoved := hx.moved (by decide)
      exact ⟨op, f, accepted, hf, hmoved.1, hmoved.2, (hy.kept (by decide)).1⟩

end RegionIR
