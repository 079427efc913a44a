import RegionIR.Ir.Basic
/-!
# Walks through a tree

A walk goes through an operator and all that is below it in the order of printing, and takes down what it
meets: operators, regions and labels of blocks. What it takes may hang on something it carries along, such
as a depth, or the operators that are still to come in the block. All that is listed of a tree is listed by
such a walk, so how the list of a tree comes from those of its parts is said here for all of them.
-/
namespace RegionIR

def Operator.leaf (h : Head) : Operator := .mk h []

theorem isEmpty_append {α : Type} (as bs : List α) : (as ++ bs).isEmpty = (as.isEmpty && bs.isEmpty) := by
  cases as <;> rfl

namespace Walk

variable {γ δ α β : Type}

section Parts

variable (w : Walk γ α) (c : γ)

@[simp] theorem operator_leaf (h : Head) : w.operator c (.leaf h) = w.atOperator c (.leaf h) := by
  simp [Operator.leaf, operator, regions]

@[simp] theorem regions_nil : w.regions c [] = [] := rfl

@[simp] theorem blocks_nil : w.blocks c [] = [] := rfl

theorem regions_append (rs others : List Region) :
    w.regions c (rs ++ others) = w.regions c rs ++ w.regions c others := by
  induction rs with
  | nil => rfl
  | cons r rs ih =>
    obtain ⟨blocks⟩ := r
    rw [List.cons_append, regions, regions, ih, List.append_assoc _ _ (w.regions c others)]

theorem regions_single (label : Option Label) (ops : List Operator) (rs : List Region) :
    w.regions c (.single label ops :: rs) = w.atRegion c (.single label ops) ++
      (label.toList.flatMap (w.atLabel c) ++ w.items (w.within c (.mk label ops)) ops) ++
        w.regions c rs := by
  simp [Region.single, regions, blocks]

@[simp] theorem items_nil : w.items c [] = [] := rfl

/-- The second part of a block starts with what is carried past the first. -/
theorem items_append_past (ops others : List Operator) :
    w.items c (ops ++ others) = w.items c ops ++ w.items (ops.foldl w.past c) others := by
  induction ops generalizing c with
  | nil => rfl
  | cons op ops ih => rw [List.cons_append, items, items, ih, List.foldl_cons, List.append_assoc]

end Parts

section Free

variable (w : Walk Unit α)

theorem items_cons (op : Operator) (rest : List Operator) :
    w.items () (op :: rest) = w.operator () op ++ w.items () rest := rfl

theorem items_append (ops others : List Operator) :
    w.items () (ops ++ others) = w.items () ops ++ w.items () others := w.items_append_past () ops others

theorem items_leaves (hs : List Head) :
    w.items () (hs.map .leaf) = hs.flatMap fun h => w.atOperator () (.leaf h) := by
  induction hs with
  | nil => rfl
  | cons h hs ih => rw [List.map_cons, items_cons, operator_leaf, ih, List.flatMap_cons]

end Free

/-- What the first walk takes down gives what the second one does, at each kind of node. -/
structure Gives (w : Walk γ α) (v : Walk δ β) (g : γ → δ) (f : α → List β) : Prop where
  atOperator : ∀ c op, (w.atOperator c op).flatMap f = v.atOperator (g c) op
  atRegion : ∀ c r, (w.atRegion c r).flatMap f = v.atRegion (g c) r
  atLabel : ∀ c l, (w.atLabel c l).flatMap f = v.atLabel (g c) l
  enters : ∀ op, w.enters op = v.enters op
  inside : ∀ c op, g (w.inside c op) = v.inside (g c) op
  within : ∀ c b, g (w.within c b) = v.within (g c) b
  past : ∀ c op, g (w.past c op) = v.past (g c) op

section Gives

variable {w : Walk γ α} {v : Walk δ β} {g : γ → δ} {f : α → List β}

mutual

theorem Gives.operator (h : Gives w v g f) (c : γ) : (op : Operator) →
    (w.operator c op).flatMap f = v.operator (g c) op
  | .mk head regions => by
    rw [Walk.operator, Walk.operator, List.flatMap_append, h.atOperator, ← h.enters, ← h.inside]
    split
    · rw [h.regions _ regions]
    · rfl

theorem Gives.regions (h : Gives w v g f) (c : γ) : (rs : List Region) →
    (w.regions c rs).flatMap f = v.regions (g c) rs
  | [] => rfl
  | .mk blocks :: rest => by
    rw [Walk.regions, Walk.regions, List.flatMap_append, List.flatMap_append, h.atRegion, h.blocks c blocks,
      h.regions c rest]

theorem Gives.blocks (h : Gives w v g f) (c : γ) : (bs : List Block) →
    (w.blocks c bs).flatMap f = v.blocks (g c) bs
  | [] => rfl
  | .mk label items :: rest => by
    have hlabel : (label.toList.flatMap (w.atLabel c)).flatMap f =
        label.toList.flatMap (v.atLabel (g c)) := by
      cases label <;> simp [h.atLabel]
    rw [Walk.blocks, Walk.blocks, List.flatMap_append, List.flatMap_append, hlabel, h.items _ items,
      h.within, h.blocks c rest]

theorem Gives.items (h : Gives w v g f) (c : γ) : (ops : List Operator) →
    (w.items c ops).flatMap f = v.items (g c) ops
  | [] => rfl
  | op :: rest => by
    rw [Walk.items, Walk.items, List.flatMap_append, h.operator c op, h.items _ rest, h.past]

end

end Gives

/-- Takes something of each operator, given those behind it in its block. -/
def behind (take : Operator → List Operator → List α) : Walk (List Operator) α where
  atOperator c op := take op c.tail
  inside _ _ := []
  within _ b := b.items
  past c _ := c.tail

section Behind

variable (take : Operator → List Operator → List α)

theorem behind_cons (op : Operator) (rest : List Operator) :
    (behind take).items (op :: rest) (op :: rest) =
      take op rest ++ (behind take).regions [] op.regions ++ (behind take).items rest rest := by
  obtain ⟨head, regions⟩ := op
  rfl

theorem behind_single (label : Option Label) (ops : List Operator) (rs : List Region) :
    (behind take).regions [] (.single label ops :: rs) =
      (behind take).items ops ops ++ (behind take).regions [] rs := by
  simp [regions_single, behind, Block.items]

end Behind

section Operators

theorem operators_cons (op : Operator) (rest : List Operator) :
    operators.items () (op :: rest) = op.walk ++ operators.items () rest := rfl

theorem operators_regions (blocks : List Block) (rest : List Region) :
    operators.regions () (.mk blocks :: rest) = operators.blocks () blocks ++ operators.regions () rest := rfl

theorem operators_blocks (label : Option Label) (items : List Operator) (rest : List Block) :
    operators.blocks () (.mk label items :: rest) = operators.items () items ++ operators.blocks () rest := by
  cases label <;> rfl

@[simp] theorem operators_single (label : Option Label) (ops : List Operator) (rs : List Region) :
    operators.regions () (.single label ops :: rs) = operators.items () ops ++ operators.regions () rs := by
  simp [regions_single, operators]

theorem operators_leaves (hs : List Head) : operators.items () (hs.map .leaf) = hs.map .leaf := by
  rw [items_leaves, List.map_eq_flatMap]
  rfl

end Operators

end Walk

theorem Operator.walk_mk (head : Head) (regions : List Region) :
    (Operator.mk head regions).walk = .mk head regions :: Walk.operators.regions () regions := rfl

end RegionIR
