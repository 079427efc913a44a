import RegionIR.Proofs.Extension
/-!
# Assembling the tree

The blocks of a pass are numbered in the order in which the tree is printed: the block of a region
comes right before the blocks inside it, and those before the block of the next region. Over such
blocks `Blocks.assemble` gives the tree that the slots spell out, whatever order the blocks were
filled in.
-/
namespace RegionIR

mutual

/-- The staged operators `items` spell the operators `ops`, and the blocks of their regions are those
from `lo` up to `hi`. -/
inductive Unfolds (F : Blocks) : Nat → List Staged → Nat → List Operator → Prop
  | nil {n : Nat} : Unfolds F n [] n []
  | cons {lo mid hi : Nat} {staged : Staged} {items : List Staged} {regions : List Region}
      {ops : List Operator} (slots : UnfoldsSlots F lo staged.slots mid regions)
      (rest : Unfolds F mid items hi ops) :
      Unfolds F lo (staged :: items) hi
        (.mk staged.op.head (staged.op.regions ++ regions) :: ops)

/-- The slots spell the regions, each with all that its block leads to. -/
inductive UnfoldsSlots (F : Blocks) : Nat → List Slot → Nat → List Region → Prop
  | nil {n : Nat} : UnfoldsSlots F n [] n []
  | cons {lo mid hi : Nat} {label : Option Label} {slots : List Slot} {regions : List Region}
      {ops : List Operator} (inner : Unfolds F (lo + 1) (F.contents lo) mid ops)
      (rest : UnfoldsSlots F mid slots hi regions) :
      UnfoldsSlots F lo (⟨lo, label⟩ :: slots) hi (.single label ops :: regions)

end

theorem Unfolds.append {F : Blocks} {hi : Nat} {more : List Staged} {others : List Operator} :
    ∀ {lo mid : Nat} {items : List Staged} {ops : List Operator}, Unfolds F lo items mid ops →
    Unfolds F mid more hi others → Unfolds F lo (items ++ more) hi (ops ++ others)
  | _, _, _, _, .nil, h => h
  | _, _, _, _, .cons slots rest, h => .cons slots (rest.append h)

theorem Unfolds.leaves {F : Blocks} {lo : Nat} (hs : List Head) :
    Unfolds F lo (hs.map (Staged.ofHead ·)) lo (hs.map .leaf) := by
  induction hs with
  | nil => exact .nil
  | cons h hs ih => exact .cons .nil ih

theorem UnfoldsSlots.append {F : Blocks} {hi : Nat} {more : List Slot} {others : List Region} :
    ∀ {lo mid : Nat} {slots : List Slot} {regions : List Region}, UnfoldsSlots F lo slots mid regions →
    UnfoldsSlots F mid more hi others → UnfoldsSlots F lo (slots ++ more) hi (regions ++ others)
  | _, _, _, _, .nil, h => h
  | _, _, _, _, .cons inner rest, h => .cons inner (rest.append h)

mutual

theorem Unfolds.le {F : Blocks} : ∀ {lo hi : Nat} {items : List Staged} {ops : List Operator},
    Unfolds F lo items hi ops → lo ≤ hi
  | _, _, _, _, .nil => le_rfl
  | _, _, _, _, .cons slots rest => slots.le.trans rest.le

theorem UnfoldsSlots.le {F : Blocks} : ∀ {lo hi : Nat} {slots : List Slot} {regions : List Region},
    UnfoldsSlots F lo slots hi regions → lo ≤ hi
  | _, _, _, _, .nil => le_rfl
  | _, _, _, _, .cons inner rest => by
    have := inner.le
    have := rest.le
    omega

end

namespace Blocks

def load (F : Blocks) (lo hi : Nat) : Nat := ∑ b ∈ Finset.Ico lo hi, F.count b

private theorem load_split (F : Blocks) {lo mid hi : Nat} (h : lo ≤ mid) (h' : mid ≤ hi) :
    F.load lo hi = F.load lo mid + F.load mid hi :=
  (Finset.sum_Ico_consecutive _ h h').symm

private theorem load_succ (F : Blocks) {lo hi : Nat} (h : lo < hi) :
    F.load lo hi = F.count lo + F.load (lo + 1) hi :=
  Finset.sum_eq_sum_Ico_succ_bot h _

private theorem total_eq_load (F : Blocks) : F.total = F.load 0 F.length := by
  induction F with
  | nil => rfl
  | cons items rest ih =>
    rw [load_succ _ (by simp), total, ih]
    refine congrArg₂ (· + ·) rfl ?_
    rw [load, load, List.length_cons, Finset.sum_Ico_add' _ 0 rest.length 1 |>.symm]
    rfl

def Agree (F bs : Blocks) (lo hi : Nat) : Prop := ∀ b, lo ≤ b → b < hi → bs.contents b = F.contents b

def AgreeOutside (F bs : Blocks) (lo hi : Nat) : Prop :=
  ∀ b, b < lo ∨ hi ≤ b → bs.contents b = F.contents b

def Drained (bs : Blocks) (lo hi : Nat) : Prop := ∀ b, lo ≤ b → b < hi → bs.contents b = []

theorem contents_set_self (bs : Blocks) (b : Nat) : Blocks.contents (bs.set b []) b = [] := by
  by_cases h : b < bs.length
  · simp [contents, h]
  · exact contents_of_length_le _ _ (by simpa using h)

theorem contents_set_of_ne (bs : Blocks) {b c : Nat} (items : List Staged) (h : c ≠ b) :
    Blocks.contents (bs.set b items) c = bs.contents c := by
  simp [contents, Ne.symm h]

def assembleRegion (depth : Nat) (slot : Slot) (bs : Blocks) : Region × Blocks :=
  let (items, bs) := thread (assembleTo depth) (bs.contents slot.block) (bs.set slot.block [])
  (.single slot.label items, bs)

theorem assembleTo_succ (depth : Nat) (staged : Staged) (bs : Blocks) :
    assembleTo (depth + 1) staged bs =
      (.mk staged.op.head (staged.op.regions ++
        (thread (assembleRegion depth) staged.slots bs).1),
        (thread (assembleRegion depth) staged.slots bs).2) := rfl

end Blocks

open Blocks

mutual

/-- Assembling staged operators gives what they spell and takes it out of the blocks, provided that there
is a level of recursion for each operator that it can meet. -/
theorem Unfolds.thread_assembleTo {F : Blocks} : ∀ {lo hi : Nat} {items : List Staged}
    {ops : List Operator}, Unfolds F lo items hi ops → ∀ (depth : Nat) (bs : Blocks),
    F.load lo hi < depth → Agree F bs lo hi →
    ∃ bs', thread (assembleTo depth) items bs = (ops, bs') ∧ AgreeOutside bs bs' lo hi ∧
      Drained bs' lo hi ∧ bs'.length = bs.length
  | _, _, _, _, .nil, _, bs, _, _ => ⟨bs, rfl, fun _ _ => rfl, fun _ _ _ => by omega, rfl⟩
  | _, _, _, _, .cons slots rest, depth, bs, hdepth, agree => by
    have hmid := slots.le
    have hhi := rest.le
    have hload := F.load_split hmid hhi
    obtain ⟨depth, rfl⟩ : ∃ n, depth = n + 1 := ⟨depth - 1, by omega⟩
    obtain ⟨bs₁, hslots, same₁, drained₁, hlen₁⟩ := slots.thread_assembleRegion depth bs (by omega)
      fun b hlo hb => agree b hlo (by omega)
    obtain ⟨bs₂, hrest, same₂, drained₂, hlen₂⟩ := rest.thread_assembleTo (depth + 1) bs₁ (by omega)
      fun b hlo hb => (same₁ b (.inr hlo)).trans (agree b (by omega) hb)
    refine ⟨bs₂, ?_, ?_, ?_, hlen₂.trans hlen₁⟩
    · simp only [thread, assembleTo_succ, hslots, hrest]
    · intro b hb
      rw [same₂ b (by omega), same₁ b (by omega)]
    · intro b hlo hb
      rcases Nat.lt_or_ge b _ with hlt | hge
      · rw [same₂ b (.inl hlt)]
        exact drained₁ b hlo hlt
      · exact drained₂ b hge hb

theorem UnfoldsSlots.thread_assembleRegion {F : Blocks} : ∀ {lo hi : Nat} {slots : List Slot}
    {regions : List Region}, UnfoldsSlots F lo slots hi regions → ∀ (depth : Nat) (bs : Blocks),
    F.load lo hi ≤ depth → Agree F bs lo hi →
    ∃ bs', thread (assembleRegion depth) slots bs = (regions, bs') ∧ AgreeOutside bs bs' lo hi ∧
      Drained bs' lo hi ∧ bs'.length = bs.length
  | _, _, _, _, .nil, _, bs, _, _ => ⟨bs, rfl, fun _ _ => rfl, fun _ _ _ => by omega, rfl⟩
  | lo, hi, _, _, @UnfoldsSlots.cons _ _ mid _ label slots regions ops inner rest, depth, bs, hdepth,
      agree => by
    have hmid := inner.le
    have hhi := rest.le
    have hsplit := F.load_split (show lo ≤ mid by omega) hhi
    have hsucc := F.load_succ (show lo < mid by omega)
    have hlo : bs.contents lo = F.contents lo := agree lo le_rfl (by omega)
    have hset : ∀ b, b ≠ lo → Blocks.contents (bs.set lo []) b = bs.contents b :=
      fun b hb => contents_set_of_ne bs [] hb
    have hinner : ∃ bs₁, thread (assembleTo depth) (F.contents lo) (bs.set lo []) = (ops, bs₁) ∧
        AgreeOutside (bs.set lo []) bs₁ (lo + 1) mid ∧ Drained bs₁ (lo + 1) mid ∧
        bs₁.length = (bs.set lo []).length := by
      by_cases hcount : F.count lo = 0
      · have hnil : F.contents lo = [] := List.length_eq_zero_iff.mp hcount
        rw [hnil] at inner ⊢
        cases inner
        exact ⟨_, rfl, fun _ _ => rfl, fun _ _ _ => by omega, rfl⟩
      · refine inner.thread_assembleTo depth _ (by omega) ?_
        intro b hb hb'
        rw [hset b (by omega)]
        exact agree b (by omega) (by omega)
    obtain ⟨bs₁, hinner, same₁, drained₁, hlen₁⟩ := hinner
    obtain ⟨bs₂, hrest, same₂, drained₂, hlen₂⟩ := rest.thread_assembleRegion depth bs₁ (by omega) (by
      intro b hb hb'
      rw [same₁ b (.inr hb), hset b (by omega)]
      exact agree b (by omega) hb')
    refine ⟨bs₂, ?_, ?_, ?_, by rw [hlen₂, hlen₁, List.length_set]⟩
    · simp only [thread, assembleRegion, hlo, hinner, hrest]
    · intro b hb
      rw [same₂ b (by omega), same₁ b (by omega), hset b (by omega)]
    · intro b hb hb'
      rcases Nat.lt_or_ge b mid with hlt | hge
      · rw [same₂ b (.inl hlt)]
        by_cases hself : b = lo
        · rw [hself, same₁ lo (by omega)]
          exact contents_set_self bs lo
        · exact drained₁ b (by omega) hlt
      · exact drained₂ b hge hb'

end

/-- The tree of an operator whose slots take all blocks. They are empty afterwards. -/
theorem Blocks.assemble_eq {F : Blocks} {h : Head} {slots : List Slot} {regions : List Region}
    (unfolds : UnfoldsSlots F 0 slots F.length regions) :
    F.assemble (.ofHead h slots) = (.mk h regions, List.replicate F.length []) := by
  obtain ⟨bs, hbs, -, drained, hlength⟩ := unfolds.thread_assembleRegion F.total F
    (by rw [total_eq_load]) fun _ _ _ => rfl
  have hempty : bs = List.replicate F.length [] := by
    rw [List.eq_replicate_iff]
    refine ⟨hlength, fun items hitems => ?_⟩
    obtain ⟨b, hb, rfl⟩ := List.mem_iff_getElem.mp hitems
    have hdrained := drained b (Nat.zero_le b) (by omega)
    rwa [contents, List.getElem?_eq_getElem hb, Option.getD_some] at hdrained
  rw [assemble, assembleTo_succ]
  simp only [Staged.ofHead, hbs, hempty]
  rfl

end RegionIR
