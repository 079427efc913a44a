import RegionIR.Ir.Basic
/-!
# Blocks under construction

While a program is being lowered its blocks are kept apart, each under a number, and an operator refers
to its regions by the numbers of their blocks. So operators can still be appended to a block that has
been left. `Blocks.assemble` puts the operator tree together in the end.
-/
namespace RegionIR

/-- A region whose only block is still under construction. -/
structure Slot where
  block : Nat
  label : Option Label := none

/-- An operator some of whose regions are still under construction. -/
structure Staged where
  op : Operator
  slots : List Slot := []

namespace Staged

/-- An operator without regions. -/
def ofHead (h : Head) (slots : List Slot := []) : Staged := ⟨.mk h [], slots⟩

end Staged

/-- The blocks opened so far, by number. -/
abbrev Blocks := List (List Staged)

namespace Blocks

/-- The operators of a block; a block that was never opened has none. -/
def contents (bs : Blocks) (block : Nat) : List Staged := (bs[block]?).getD []

/-- The number of operators in a block. -/
def count (bs : Blocks) (block : Nat) : Nat := (bs.contents block).length

/-- Opens an empty block. Its number is the number of blocks before it. -/
def extend (bs : Blocks) : Blocks := bs ++ [[]]

/-- Appends an operator to a block; a block that was never opened takes none. -/
def emit (bs : Blocks) (block : Nat) (op : Staged) : Blocks := bs.modify block (· ++ [op])

/-- The number of operators in all blocks. -/
def total : Blocks → Nat
  | [] => 0
  | items :: rest => items.length + total rest

/-- Threads the blocks through a list. -/
def thread {α β : Type} (f : α → Blocks → β × Blocks) : List α → Blocks → List β × Blocks
  | [], bs => ([], bs)
  | a :: rest, bs =>
    let (b, bs) := f a bs
    let (more, bs) := thread f rest bs
    (b :: more, bs)

/-- Assembles an operator. The block of each slot is taken out, so that it is empty for any later slot
of the same number, and its operators are assembled in turn. Each level of recursion takes an operator
out of the blocks, so `depth` may be the number of operators in them. -/
def assembleTo : (depth : Nat) → Staged → Blocks → Operator × Blocks
  | 0, staged, bs => (staged.op, bs)
  | depth + 1, staged, bs =>
    let region (slot : Slot) (bs : Blocks) : Region × Blocks :=
      let taken := bs.contents slot.block
      let (items, bs) := thread (assembleTo depth) taken (bs.set slot.block [])
      (.single slot.label items, bs)
    let (regions, bs) := thread region staged.slots bs
    (.mk staged.op.head (staged.op.regions ++ regions), bs)

/-- Assembles an operator with all that its slots lead to, and what is left of the blocks. -/
def assemble (bs : Blocks) (staged : Staged) : Operator × Blocks :=
  assembleTo (bs.total + 1) staged bs

end Blocks

end RegionIR
