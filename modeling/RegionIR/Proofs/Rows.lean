import RegionIR.Proofs.Numbering
/-!
# The rows of a program

A tree is printed in rows: one for each operator, with its results and operands, and one for each label
of a block, with its parameters. The rows of a finished tree are those of the blocks it was assembled
from, so a pass can be followed row by row, whatever block a row goes to.
-/
namespace RegionIR

def Head.outcomes (h : Head) : List Operand := h.results.zip h.resultTypes

inductive Row where
  | operator (head : Head)
  | label (label : Label)

namespace Row

def uses : Row → List Operand
  | operator h => h.operands
  | label _ => []

def makes : Row → List Operand
  | operator h => h.outcomes
  | label l => l.params

def ids : Row → List ValueId
  | operator h => h.results
  | label l => l.params.map Prod.fst

def varIds : Row → List ValueId
  | operator h =>
    if h.dialect = .py ∧ (h.name = "assign" ∨ h.name = "cast") then h.results else []
  | label l => l.params.map Prod.fst

/-- A row records one type for each of its ids. -/
def Paired : Row → Prop
  | operator h => h.args.length = h.argTypes.length ∧ h.results.length = h.resultTypes.length
  | label _ => True

private theorem Paired.map_fst_makes {r : Row} (paired : r.Paired) : r.makes.map Prod.fst = r.ids := by
  cases r with
  | operator h => exact List.map_fst_zip paired.2.le
  | label l => rfl

end Row

namespace Walk

def rows : Walk Unit Row where
  atOperator _ op := [.operator op.head]
  atLabel _ l := [.label l]

@[simp] theorem rows_single (label : Option Label) (ops : List Operator) (rs : List Region) :
    rows.regions () (.single label ops :: rs) =
      label.toList.map .label ++ rows.items () ops ++ rows.regions () rs := by
  simp [regions_single, rows, List.map_eq_flatMap]

theorem rows_give_ids : Gives rows ids id Row.ids where
  atOperator _ _ := List.append_nil _
  atRegion _ _ := rfl
  atLabel _ _ := List.append_nil _
  enters _ := rfl
  inside _ _ := rfl
  within _ _ := rfl
  past _ _ := rfl

end Walk

namespace Operator

/-- The rows of an operator and of all that is below it, in the order of printing. -/
def rows (op : Operator) : List Row := Walk.rows.operator () op

theorem rows_mk (head : Head) (regions : List Region) :
    rows (.mk head regions) = .operator head :: Walk.rows.regions () regions := rfl

theorem rows_cons (op : Operator) (rest : List Operator) :
    Walk.rows.items () (op :: rest) = op.rows ++ Walk.rows.items () rest := rfl

/-- Every use of an operand in a tree. -/
def uses (op : Operator) : List Operand := op.rows.flatMap Row.uses

/-- Every id that a tree produces, with its type. -/
def makes (op : Operator) : List Operand := op.rows.flatMap Row.makes

/-- The ids that a tree produces for variables. -/
def varIds (op : Operator) : List ValueId := op.rows.flatMap Row.varIds

private theorem flatMap_ids (op : Operator) : op.rows.flatMap Row.ids = op.produced :=
  Walk.rows_give_ids.operator () op

theorem map_fst_makes (op : Operator) (paired : ∀ r ∈ op.rows, r.Paired) :
    op.makes.map Prod.fst = op.produced := by
  rw [makes, List.map_flatMap, ← flatMap_ids]
  exact List.flatMap_congr fun r hr => (paired r hr).map_fst_makes

end Operator

open Operator

def Slot.rows (slot : Slot) : List Row := slot.label.toList.map .label

/-- The rows of a staged operator itself; those of its open regions belong to their blocks. -/
def Staged.rows (staged : Staged) : List Row :=
  staged.op.rows ++ staged.slots.flatMap Slot.rows

theorem Staged.rows_ofHead (h : Head) (slots : List Slot) :
    (Staged.ofHead h slots).rows = .operator h :: slots.flatMap Slot.rows := by
  simp [Staged.rows, Staged.ofHead, rows_mk]

namespace Blocks

def HasRow (F : Blocks) (lo hi : Nat) (r : Row) : Prop :=
  ∃ b, lo ≤ b ∧ b < hi ∧ ∃ staged ∈ F.contents b, r ∈ staged.rows

private theorem hasRow_split (F : Blocks) {lo mid hi : Nat} (h : lo ≤ mid) (h' : mid ≤ hi) (r : Row) :
    F.HasRow lo hi r ↔ F.HasRow lo mid r ∨ F.HasRow mid hi r := by
  constructor
  · rintro ⟨b, hlo, hhi, hrow⟩
    by_cases hb : b < mid
    · exact .inl ⟨b, hlo, hb, hrow⟩
    · exact .inr ⟨b, by omega, hhi, hrow⟩
  · rintro (⟨b, hlo, hhi, hrow⟩ | ⟨b, hlo, hhi, hrow⟩)
    · exact ⟨b, hlo, by omega, hrow⟩
    · exact ⟨b, by omega, hhi, hrow⟩

private theorem hasRow_self (F : Blocks) (b : Nat) (r : Row) :
    F.HasRow b (b + 1) r ↔ ∃ staged ∈ F.contents b, r ∈ staged.rows := by
  constructor
  · rintro ⟨c, hlo, hhi, hrow⟩
    rwa [show c = b by omega] at hrow
  · intro hrow
    exact ⟨b, le_rfl, by omega, hrow⟩

private theorem hasRow_empty (F : Blocks) (n : Nat) (r : Row) : ¬ F.HasRow n n r := by
  rintro ⟨b, hlo, hhi, -⟩
  omega

end Blocks

mutual

/-- The rows of unfolded operators are those of the staged ones and of the blocks they lead to. -/
theorem Unfolds.mem_rows {F : Blocks} {r : Row} : ∀ {lo hi : Nat} {items : List Staged}
    {ops : List Operator}, Unfolds F lo items hi ops →
    (r ∈ Walk.rows.items () ops ↔ (∃ staged ∈ items, r ∈ staged.rows) ∨ F.HasRow lo hi r)
  | lo, _, _, _, .nil => by simp [F.hasRow_empty]
  | _, _, _, _, @Unfolds.cons _ lo mid hi staged items regions ops slots rest => by
    rw [rows_cons, rows_mk, Walk.regions_append, F.hasRow_split slots.le rest.le]
    have hop : staged.op.rows = .operator staged.op.head :: Walk.rows.regions () staged.op.regions := by
      cases staged.op
      rfl
    simp only [List.mem_append, List.mem_cons, slots.mem_rows, rest.mem_rows, Staged.rows, hop,
      exists_eq_or_imp]
    apply iff_of_eq
    ac_rfl

theorem UnfoldsSlots.mem_rows {F : Blocks} {r : Row} : ∀ {lo hi : Nat} {slots : List Slot}
    {regions : List Region}, UnfoldsSlots F lo slots hi regions →
    (r ∈ Walk.rows.regions () regions ↔ r ∈ slots.flatMap Slot.rows ∨ F.HasRow lo hi r)
  | lo, _, _, _, .nil => by simp [F.hasRow_empty]
  | lo, hi, _, _, @UnfoldsSlots.cons _ _ mid _ label slots regions ops inner rest => by
    have hmid := inner.le
    rw [Walk.rows_single, List.flatMap_cons, F.hasRow_split (show lo ≤ mid by omega) rest.le,
      F.hasRow_split (show lo ≤ lo + 1 by omega) hmid, F.hasRow_self]
    simp only [List.mem_append, inner.mem_rows, rest.mem_rows, Slot.rows]
    apply iff_of_eq
    ac_rfl

end

def Blocks.rows (bs : Blocks) : List Row := bs.flatMap fun items => items.flatMap Staged.rows

namespace Blocks

variable (bs : Blocks) (r : Row)

private theorem mem_rows : r ∈ bs.rows ↔ bs.HasRow 0 bs.length r := by
  simp only [rows, List.mem_flatMap, HasRow, contents]
  constructor
  · rintro ⟨items, hitems, hrow⟩
    obtain ⟨b, hb, rfl⟩ := List.mem_iff_getElem.mp hitems
    exact ⟨b, Nat.zero_le b, hb, by simpa [List.getElem?_eq_getElem hb] using hrow⟩
  · rintro ⟨b, -, hb, hrow⟩
    rw [List.getElem?_eq_getElem hb, Option.getD_some] at hrow
    exact ⟨_, List.getElem_mem hb, hrow⟩

theorem mem_rows_emit {b : Nat} (hb : b < bs.length) (op : Staged) :
    r ∈ (bs.emit b op).rows ↔ r ∈ bs.rows ∨ r ∈ op.rows := by
  have hself := contents_emit_self bs b op hb
  simp only [mem_rows, HasRow, length_emit]
  constructor
  · rintro ⟨c, -, hc, staged, hstaged, hrow⟩
    by_cases hcb : c = b
    · subst hcb
      rw [hself, List.mem_append, List.mem_singleton] at hstaged
      rcases hstaged with hstaged | rfl
      · exact .inl ⟨c, Nat.zero_le c, hc, staged, hstaged, hrow⟩
      · exact .inr hrow
    · rw [contents_emit_of_ne _ _ _ _ hcb] at hstaged
      exact .inl ⟨c, Nat.zero_le c, hc, staged, hstaged, hrow⟩
  · rintro (⟨c, -, hc, staged, hstaged, hrow⟩ | hrow)
    · refine ⟨c, Nat.zero_le c, hc, staged, ?_, hrow⟩
      by_cases hcb : c = b
      · subst hcb
        rw [hself]
        exact List.mem_append_left _ hstaged
      · rwa [contents_emit_of_ne _ _ _ _ hcb]
    · exact ⟨b, Nat.zero_le b, hb, op, by rw [hself]; simp, hrow⟩

@[simp] theorem rows_extend : bs.extend.rows = bs.rows := by
  simp [rows, extend]

theorem mem_rows_foldl_emit {b : Nat} (hb : b < bs.length) (hs : List Head) :
    r ∈ (hs.foldl (fun bs h => bs.emit b (.ofHead h)) bs).rows ↔
      r ∈ bs.rows ∨ r ∈ hs.map Row.operator := by
  induction hs generalizing bs with
  | nil => simp
  | cons h hs ih =>
    rw [List.foldl_cons, ih _ (by rwa [length_emit]), mem_rows_emit _ _ hb, Staged.rows_ofHead]
    simp [or_assoc]

end Blocks

theorem SourceUnit.rows_of_lower {stmts : List Stmt} {op : Operator}
    (h : (SourceUnit.module stmts).lower = .ok op) :
    ∃ t, Lowers State.initial stmts t ∧
      (∀ r, r ∈ op.rows ↔ r = .operator (Head.builtin "module") ∨ r ∈ t.blocks.rows) ∧
      ((∀ x ∈ Act.namesAll (Stmt.actsAll false stmts), PlainName x) →
        Draws State.initial op.produced t) := by
  obtain ⟨t, ops, grows, unfolds, rfl⟩ := unfolds_of_lower h
  refine ⟨t, grows.lowers, ?_, ?_⟩
  · intro r
    rw [rows_mk, List.mem_cons, unfolds.mem_rows, Blocks.mem_rows]
    simp [Slot.rows]
  · intro plain
    rw [produced_module]
    exact grows.draws State.initial_placed plain

end RegionIR
