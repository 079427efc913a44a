import RegionIR.Proofs.Preorder
/-!
# Assembling any blocks

Nothing says that the blocks which `Blocks.assemble` is given form a tree. Two slots may name one block, a
slot may name none, and blocks may refer to each other in a circle. `Drains` is the recursion of assembling
without a bound on its depth: a slot takes the operators out of its block, and they are assembled in turn.
Every level takes an operator out of the blocks, so the recursion ends on all of them. No operator is lost
or doubled, and the blocks that it comes by are left empty.
-/
namespace RegionIR

open Operator Blocks

mutual

/-- The staged operators `items` become `ops`, while the blocks go from `bs` to `left`. The slots `visits`
are met on the way, in this order. -/
inductive Drains : Blocks → List Staged → List Slot → List Operator → Blocks → Prop
  | nil {bs : Blocks} : Drains bs [] [] [] bs
  | cons {bs mid left : Blocks} {staged : Staged} {items : List Staged} {own others : List Slot}
      {regions : List Region} {ops : List Operator} (slots : DrainsSlots bs staged.slots own regions mid)
      (rest : Drains mid items others ops left) :
      Drains bs (staged :: items) (own ++ others)
        (.mk staged.op.head (staged.op.regions ++ regions) :: ops) left

/-- The slots become regions. What a slot finds in its block is gone for all that comes after it. -/
inductive DrainsSlots : Blocks → List Slot → List Slot → List Region → Blocks → Prop
  | nil {bs : Blocks} : DrainsSlots bs [] [] [] bs
  | cons {bs mid left : Blocks} {slot : Slot} {slots inner others : List Slot} {items : List Operator}
      {regions : List Region}
      (block : Drains (bs.set slot.block []) (bs.contents slot.block) inner items mid)
      (rest : DrainsSlots mid slots others regions left) :
      DrainsSlots bs (slot :: slots) (slot :: (inner ++ others)) (.single slot.label items :: regions) left

end

mutual

theorem Drains.unique : ∀ {bs left left' : Blocks} {items : List Staged} {visits visits' : List Slot}
    {ops ops' : List Operator}, Drains bs items visits ops left → Drains bs items visits' ops' left' →
    visits' = visits ∧ ops' = ops ∧ left' = left
  | _, _, _, _, _, _, _, _, .nil, .nil => ⟨rfl, rfl, rfl⟩
  | _, _, _, _, _, _, _, _, .cons slots rest, .cons slots' rest' => by
    obtain ⟨rfl, rfl, rfl⟩ := slots.unique slots'
    obtain ⟨rfl, rfl, rfl⟩ := rest.unique rest'
    exact ⟨rfl, rfl, rfl⟩

theorem DrainsSlots.unique : ∀ {bs left left' : Blocks} {slots : List Slot} {visits visits' : List Slot}
    {regions regions' : List Region}, DrainsSlots bs slots visits regions left →
    DrainsSlots bs slots visits' regions' left' → visits' = visits ∧ regions' = regions ∧ left' = left
  | _, _, _, _, _, _, _, _, .nil, .nil => ⟨rfl, rfl, rfl⟩
  | _, _, _, _, _, _, _, _, .cons block rest, .cons block' rest' => by
    obtain ⟨rfl, rfl, rfl⟩ := block.unique block'
    obtain ⟨rfl, rfl, rfl⟩ := rest.unique rest'
    exact ⟨rfl, rfl, rfl⟩

end

private theorem Blocks.contents_append_perm (bs : Blocks) (b : Nat) :
    (bs.contents b ++ (bs.set b []).flatten).Perm bs.flatten := by
  induction bs generalizing b with
  | nil => simp [contents]
  | cons items rest ih =>
    cases b with
    | zero => simp [contents]
    | succ b =>
      have hcontents : contents (items :: rest) (b + 1) = Blocks.contents rest b := rfl
      rw [hcontents, List.set_cons_succ, List.flatten_cons, List.flatten_cons]
      exact (List.perm_append_comm_assoc _ _ _).trans ((ih b).append_left items)

private theorem Blocks.total_eq_length_flatten (bs : Blocks) : bs.total = bs.flatten.length := by
  induction bs with
  | nil => rfl
  | cons items rest ih => rw [total, ih, List.flatten_cons, List.length_append]

private theorem Blocks.total_set (bs : Blocks) (b : Nat) :
    bs.count b + Blocks.total (bs.set b []) = bs.total := by
  rw [total_eq_length_flatten, total_eq_length_flatten, ← (bs.contents_append_perm b).length_eq,
    List.length_append]
  rfl

mutual

theorem Drains.total_le : ∀ {bs left : Blocks} {items : List Staged} {visits : List Slot}
    {ops : List Operator}, Drains bs items visits ops left → left.total ≤ bs.total
  | _, _, _, _, _, .nil => le_rfl
  | _, _, _, _, _, .cons slots rest => rest.total_le.trans slots.total_le

theorem DrainsSlots.total_le : ∀ {bs left : Blocks} {slots visits : List Slot} {regions : List Region},
    DrainsSlots bs slots visits regions left → left.total ≤ bs.total
  | _, _, _, _, _, .nil => le_rfl
  | bs, _, _, _, _, @DrainsSlots.cons _ _ _ slot _ _ _ _ _ block rest => by
    have hblock := block.total_le
    have hrest := rest.total_le
    have hset := bs.total_set slot.block
    omega

end

theorem Drains.append {mid left : Blocks} {more : List Staged} {later : List Slot} {others : List Operator} :
    ∀ {bs : Blocks} {items : List Staged} {visits : List Slot} {ops : List Operator},
    Drains bs items visits ops mid → Drains mid more later others left →
    Drains bs (items ++ more) (visits ++ later) (ops ++ others) left
  | _, _, _, _, .nil, h => h
  | _, _, _, _, .cons slots rest, h => by
    rw [List.append_assoc]
    exact .cons slots (rest.append h)

/-- Blocks with fewer operators than `depth` are assembled as the recursion has it. -/
private def EndsWithin (depth : Nat) : Prop := ∀ (staged : Staged) (bs : Blocks), bs.total < depth →
  ∃ visits, Drains bs [staged] visits [(assembleTo depth staged bs).1] (assembleTo depth staged bs).2

namespace EndsWithin

variable {depth : Nat}

private theorem thread (h : EndsWithin depth) (items : List Staged) : ∀ bs : Blocks, bs.total < depth →
    ∃ visits, Drains bs items visits (Blocks.thread (assembleTo depth) items bs).1
      (Blocks.thread (assembleTo depth) items bs).2 := by
  induction items with
  | nil => exact fun bs _ => ⟨[], .nil⟩
  | cons staged items ih =>
    intro bs hbs
    obtain ⟨own, hstaged⟩ := h staged bs hbs
    obtain ⟨others, hitems⟩ := ih _ (hstaged.total_le.trans_lt hbs)
    exact ⟨own ++ others, hstaged.append hitems⟩

private theorem regions (h : EndsWithin depth) (slots : List Slot) : ∀ bs : Blocks, bs.total ≤ depth →
    ∃ visits, DrainsSlots bs slots visits (Blocks.thread (assembleRegion depth) slots bs).1
      (Blocks.thread (assembleRegion depth) slots bs).2 := by
  induction slots with
  | nil => exact fun bs _ => ⟨[], .nil⟩
  | cons slot slots ih =>
    intro bs hbs
    have hset := bs.total_set slot.block
    have hblock : ∃ inner, Drains (bs.set slot.block []) (bs.contents slot.block) inner
        (Blocks.thread (assembleTo depth) (bs.contents slot.block) (bs.set slot.block [])).1
        (Blocks.thread (assembleTo depth) (bs.contents slot.block) (bs.set slot.block [])).2 := by
      by_cases hempty : bs.contents slot.block = []
      · rw [hempty]
        exact ⟨[], .nil⟩
      · have hcount : 0 < bs.count slot.block := List.length_pos_iff.mpr hempty
        exact h.thread _ _ (by omega)
    obtain ⟨inner, hblock⟩ := hblock
    have hle := hblock.total_le
    obtain ⟨others, hslots⟩ := ih _ (hle.trans (by omega))
    exact ⟨slot :: (inner ++ others), .cons hblock hslots⟩

end EndsWithin

private theorem endsWithin (depth : Nat) : EndsWithin depth := by
  induction depth with
  | zero => exact fun _ _ hbs => absurd hbs (Nat.not_lt_zero _)
  | succ depth ih =>
    intro staged bs hbs
    obtain ⟨visits, hslots⟩ := ih.regions staged.slots bs (Nat.le_of_lt_succ hbs)
    refine ⟨visits ++ [], ?_⟩
    rw [assembleTo_succ]
    exact .cons hslots .nil

namespace Blocks

def without (bs : Blocks) (slots : List Slot) : Blocks := slots.foldl (fun bs slot => bs.set slot.block []) bs

variable (bs : Blocks)

@[simp] theorem without_nil : bs.without [] = bs := rfl

@[simp] theorem without_cons (slot : Slot) (slots : List Slot) :
    bs.without (slot :: slots) = without (bs.set slot.block []) slots := rfl

@[simp] theorem without_append (slots more : List Slot) :
    bs.without (slots ++ more) = (bs.without slots).without more := List.foldl_append

private theorem length_without (slots : List Slot) : (bs.without slots).length = bs.length := by
  induction slots generalizing bs with
  | nil => rfl
  | cons slot slots ih => rw [without_cons, ih, List.length_set]

private theorem contents_without (slots : List Slot) (b : Nat) :
    (bs.without slots).contents b = if b ∈ slots.map Slot.block then [] else bs.contents b := by
  induction slots generalizing bs with
  | nil => simp
  | cons slot slots ih =>
    rw [without_cons, ih]
    by_cases hb : b = slot.block
    · rw [hb, contents_set_self]
      simp
    · rw [contents_set_of_ne bs [] hb]
      simp [hb]

variable {bs}

private theorem Bare.without (bare : bs.Bare) (slots : List Slot) : (bs.without slots).Bare := by
  intro b staged hstaged
  rw [contents_without] at hstaged
  split at hstaged
  · simp at hstaged
  · exact bare b staged hstaged

end Blocks

mutual

/-- The blocks of the slots that are met are emptied, and nothing else happens to the blocks. -/
theorem Drains.left_eq : ∀ {bs left : Blocks} {items : List Staged} {visits : List Slot}
    {ops : List Operator}, Drains bs items visits ops left → left = bs.without visits
  | _, _, _, _, _, .nil => rfl
  | _, _, _, _, _, .cons slots rest => by rw [without_append, ← slots.left_eq, ← rest.left_eq]

theorem DrainsSlots.left_eq : ∀ {bs left : Blocks} {slots visits : List Slot} {regions : List Region},
    DrainsSlots bs slots visits regions left → left = bs.without visits
  | _, _, _, _, _, .nil => rfl
  | _, _, _, _, _, .cons block rest => by rw [without_cons, without_append, ← block.left_eq, ← rest.left_eq]

end

private theorem Drains.bare {bs left : Blocks} {items : List Staged} {visits : List Slot}
    {ops : List Operator} (h : Drains bs items visits ops left) (bare : bs.Bare) : left.Bare := by
  rw [h.left_eq]
  exact bare.without visits

private theorem DrainsSlots.bare {bs left : Blocks} {slots visits : List Slot} {regions : List Region}
    (h : DrainsSlots bs slots visits regions left) (bare : bs.Bare) : left.Bare := by
  rw [h.left_eq]
  exact bare.without visits

def Blocks.heads (bs : Blocks) : List Head := bs.flatten.map (·.op.head)

private theorem Blocks.heads_set_perm (bs : Blocks) (b : Nat) :
    ((bs.contents b).map (·.op.head) ++ Blocks.heads (bs.set b [])).Perm bs.heads := by
  rw [heads, heads, ← List.map_append]
  exact (bs.contents_append_perm b).map _

mutual

/-- The operators that come out and those that are left are the given ones and those of the blocks. -/
theorem Drains.heads_perm : ∀ {bs left : Blocks} {items : List Staged} {visits : List Slot}
    {ops : List Operator}, Drains bs items visits ops left → bs.Bare →
    (∀ staged ∈ items, staged.op.regions = []) →
    ((Walk.operators.items () ops).map Operator.head ++ left.heads).Perm (items.map (·.op.head) ++ bs.heads)
  | _, _, _, _, _, .nil, _, _ => by simp
  | _, _, _, _, _, @Drains.cons _ _ _ staged _ _ _ _ _ slots rest, bare, hitems => by
    have hslots := slots.heads_perm bare
    have hrest := rest.heads_perm (slots.bare bare) fun st hst => hitems st (List.mem_cons_of_mem _ hst)
    rw [Walk.operators_cons, walk_mk, hitems staged List.mem_cons_self, List.nil_append,
      List.map_append, List.map_cons, List.map_cons, List.cons_append, List.cons_append,
      List.cons_append, List.append_assoc]
    refine List.Perm.cons _ ?_
    exact (hrest.append_left _).trans ((List.perm_append_comm_assoc _ _ _).trans (hslots.append_left _))

theorem DrainsSlots.heads_perm : ∀ {bs left : Blocks} {slots visits : List Slot} {regions : List Region},
    DrainsSlots bs slots visits regions left → bs.Bare →
    ((Walk.operators.regions () regions).map Operator.head ++ left.heads).Perm bs.heads
  | _, _, _, _, _, .nil, _ => by simp
  | bs, _, _, _, _, @DrainsSlots.cons _ _ _ slot _ _ _ _ _ block rest, bare => by
    have hset : Blocks.Bare (bs.set slot.block []) := bare.without [slot]
    have hblock := block.heads_perm hset (bare slot.block)
    have hrest := rest.heads_perm (block.bare hset)
    rw [Walk.operators_single, List.map_append, List.append_assoc]
    exact (hrest.append_left _).trans (hblock.trans (bs.heads_set_perm slot.block))

end

/-- Slots and their regions, in the order in which the slots are met. A region holds what its slot finds in
the blocks, after the slots before it have emptied theirs. -/
inductive Finds : Blocks → List Slot → List Region → Prop
  | nil {bs : Blocks} : Finds bs [] []
  | cons {bs : Blocks} {slot : Slot} {slots : List Slot} {items : List Operator} {regions : List Region}
      (found : items.map Operator.head = (bs.contents slot.block).map (·.op.head))
      (rest : Finds (bs.set slot.block []) slots regions) :
      Finds bs (slot :: slots) (.single slot.label items :: regions)

namespace Finds

theorem append {more : List Slot} {others : List Region} {bs : Blocks} {slots : List Slot}
    {regions : List Region} (h : Finds bs slots regions) (h' : Finds (bs.without slots) more others) :
    Finds bs (slots ++ more) (regions ++ others) := by
  induction h with
  | nil => exact h'
  | cons found _ ih => exact .cons found (ih h')

private theorem length {bs : Blocks} {slots : List Slot} {regions : List Region}
    (h : Finds bs slots regions) :
    regions.length = slots.length := by
  induction h with
  | nil => rfl
  | cons _ _ ih => rw [List.length_cons, List.length_cons, ih]

private theorem at_index {bs : Blocks} {slots : List Slot} {regions : List Region}
    (h : Finds bs slots regions) {k : Nat} {slot : Slot} (hk : slots[k]? = some slot) :
    ∃ items, regions[k]? = some (.single slot.label items) ∧ items.map Operator.head =
      ((bs.without (slots.take k)).contents slot.block).map (·.op.head) := by
  induction h generalizing k with
  | nil => simp at hk
  | @cons bs first slots items regions found _ ih =>
    cases k with
    | zero =>
      simp only [List.getElem?_cons_zero, Option.some.injEq] at hk
      subst hk
      exact ⟨items, rfl, found⟩
    | succ k => exact ih hk

end Finds

mutual

theorem Drains.finds : ∀ {bs left : Blocks} {items : List Staged} {visits : List Slot}
    {ops : List Operator}, Drains bs items visits ops left → bs.Bare →
    (∀ staged ∈ items, staged.op.regions = []) →
    ops.map Operator.head = items.map (·.op.head) ∧ Finds bs visits (Walk.preorder.items () ops)
  | _, _, _, _, _, .nil, _, _ => ⟨rfl, .nil⟩
  | _, _, _, _, _, @Drains.cons _ _ _ staged _ _ _ _ _ slots rest, bare, hitems => by
    have hslots := slots.finds bare
    obtain ⟨hheads, hrest⟩ :=
      rest.finds (slots.bare bare) fun st hst => hitems st (List.mem_cons_of_mem _ hst)
    rw [slots.left_eq] at hrest
    refine ⟨?_, ?_⟩
    · rw [List.map_cons, List.map_cons, hheads]
      rfl
    · rw [preorder_cons, preorder_mk, hitems staged List.mem_cons_self, List.nil_append]
      exact hslots.append hrest

theorem DrainsSlots.finds : ∀ {bs left : Blocks} {slots visits : List Slot} {regions : List Region},
    DrainsSlots bs slots visits regions left → bs.Bare → Finds bs visits (Walk.preorder.regions () regions)
  | _, _, _, _, _, .nil, _ => .nil
  | bs, _, _, _, _, @DrainsSlots.cons _ _ _ slot _ _ _ _ _ block rest, bare => by
    have hset : Blocks.Bare (bs.set slot.block []) := bare.without [slot]
    obtain ⟨hheads, hblock⟩ := block.finds hset (bare slot.block)
    have hrest := rest.finds (block.bare hset)
    rw [block.left_eq] at hrest
    rw [Walk.preorder_single]
    exact .cons hheads (hblock.append hrest)

end

namespace Blocks

def Refers (bs : Blocks) (b c : Nat) : Prop := ∃ staged ∈ bs.contents b, c ∈ staged.refs

/-- The block can be reached from one of those given, by going from a block to those that its operators
refer to. -/
def Reaches (bs : Blocks) (sources : List Nat) (b : Nat) : Prop :=
  ∃ c ∈ sources, Relation.ReflTransGen bs.Refers c b

variable {bs : Blocks}

private theorem Refers.of_without {slots : List Slot} {b c : Nat} (h : (bs.without slots).Refers b c) :
    bs.Refers b c := by
  obtain ⟨staged, hstaged, hc⟩ := h
  rw [contents_without] at hstaged
  split at hstaged
  · simp at hstaged
  · exact ⟨staged, hstaged, hc⟩

private theorem Reaches.of_without {slots : List Slot} {sources : List Nat} {b : Nat}
    (h : (bs.without slots).Reaches sources b) : bs.Reaches sources b := by
  obtain ⟨c, hc, hpath⟩ := h
  exact ⟨c, hc, Relation.ReflTransGen.mono (fun _ _ => Refers.of_without) _ _ hpath⟩

theorem Reaches.mono {sources more : List Nat} {b : Nat} (h : bs.Reaches sources b)
    (hsub : sources ⊆ more) : bs.Reaches more b := by
  obtain ⟨c, hc, hpath⟩ := h
  exact ⟨c, hsub hc, hpath⟩

private theorem Reaches.through {b c : Nat} (h : bs.Reaches ((bs.contents b).flatMap Staged.refs) c) :
    bs.Reaches [b] c := by
  obtain ⟨d, hd, hpath⟩ := h
  obtain ⟨staged, hstaged, hd⟩ := List.mem_flatMap.mp hd
  exact ⟨b, List.mem_singleton_self b, .head ⟨staged, hstaged, hd⟩ hpath⟩

/-- The operators in these blocks refer to none but these. -/
def Closed (bs : Blocks) (blocks : List Nat) : Prop := ∀ b ∈ blocks, ∀ c, bs.Refers b c → c ∈ blocks

theorem Closed.append {slots more : List Slot} (h : bs.Closed (slots.map Slot.block))
    (h' : (bs.without slots).Closed (more.map Slot.block)) : bs.Closed ((slots ++ more).map Slot.block) := by
  intro b hb c hc
  rw [List.map_append, List.mem_append] at hb ⊢
  by_cases hslots : b ∈ slots.map Slot.block
  · exact .inl (h b hslots c hc)
  · refine .inr (h' b (hb.resolve_left hslots) c ?_)
    rw [Refers, contents_without, if_neg hslots]
    exact hc

private theorem Closed.reaches {blocks sources : List Nat} (h : bs.Closed blocks)
    (hsub : sources ⊆ blocks) {b : Nat} (hb : bs.Reaches sources b) : b ∈ blocks := by
  obtain ⟨c, hc, hpath⟩ := hb
  induction hpath with
  | refl => exact hsub hc
  | tail _ step ih => exact h _ ih _ step

end Blocks

mutual

theorem Drains.reaches : ∀ {bs left : Blocks} {items : List Staged} {visits : List Slot}
    {ops : List Operator}, Drains bs items visits ops left →
    ∀ b ∈ visits.map Slot.block, bs.Reaches (items.flatMap Staged.refs) b
  | _, _, _, _, _, .nil, b, hb => by simp at hb
  | _, _, _, _, _, .cons slots rest, b, hb => by
    rw [List.map_append, List.mem_append] at hb
    rw [List.flatMap_cons]
    rcases hb with hb | hb
    · exact (slots.reaches b hb).mono (List.subset_append_left _ _)
    · have hrest := rest.reaches b hb
      rw [slots.left_eq] at hrest
      exact hrest.of_without.mono (List.subset_append_right _ _)

theorem DrainsSlots.reaches : ∀ {bs left : Blocks} {slots visits : List Slot} {regions : List Region},
    DrainsSlots bs slots visits regions left →
    ∀ b ∈ visits.map Slot.block, bs.Reaches (slots.map Slot.block) b
  | _, _, _, _, _, .nil, b, hb => by simp at hb
  | bs, _, _, _, _, @DrainsSlots.cons _ _ _ slot _ _ _ _ _ block rest, b, hb => by
    rw [List.map_cons, List.map_append, List.mem_cons, List.mem_append] at hb
    rw [List.map_cons]
    rcases hb with rfl | hb | hb
    · exact ⟨_, List.mem_cons_self, .refl⟩
    · have hblock : (bs.without [slot]).Reaches _ b := block.reaches b hb
      exact hblock.of_without.through.mono (by simp)
    · have hrest := rest.reaches b hb
      rw [block.left_eq, ← without_cons] at hrest
      exact hrest.of_without.mono (List.subset_cons_self _ _)

end

mutual

theorem Drains.closed : ∀ {bs left : Blocks} {items : List Staged} {visits : List Slot}
    {ops : List Operator}, Drains bs items visits ops left →
    items.flatMap Staged.refs ⊆ visits.map Slot.block ∧ bs.Closed (visits.map Slot.block)
  | _, _, _, _, _, .nil => by simp [Blocks.Closed]
  | _, _, _, _, _, .cons slots rest => by
    obtain ⟨hslots, hclosed⟩ := slots.closed
    obtain ⟨hrest, hclosed'⟩ := rest.closed
    rw [slots.left_eq] at hclosed'
    refine ⟨?_, hclosed.append hclosed'⟩
    rw [List.flatMap_cons, List.map_append]
    exact List.append_subset.mpr ⟨List.subset_append_of_subset_left _ hslots,
      List.subset_append_of_subset_right _ hrest⟩

theorem DrainsSlots.closed : ∀ {bs left : Blocks} {slots visits : List Slot} {regions : List Region},
    DrainsSlots bs slots visits regions left →
    slots.map Slot.block ⊆ visits.map Slot.block ∧ bs.Closed (visits.map Slot.block)
  | _, _, _, _, _, .nil => by simp [Blocks.Closed]
  | bs, _, _, _, _, @DrainsSlots.cons _ _ _ slot _ inner _ _ _ block rest => by
    obtain ⟨hitems, hblock⟩ := block.closed
    obtain ⟨hslots, hrest⟩ := rest.closed
    rw [block.left_eq, ← without_cons] at hrest
    have hfirst : bs.Closed ((slot :: inner).map Slot.block) := by
      intro b hb c hc
      rw [List.map_cons, List.mem_cons] at hb ⊢
      by_cases heq : b = slot.block
      · obtain ⟨staged, hstaged, hc⟩ := hc
        rw [heq] at hstaged
        exact .inr (hitems (List.mem_flatMap.mpr ⟨staged, hstaged, hc⟩))
      · refine .inr (hblock b (hb.resolve_left heq) c ?_)
        rw [Blocks.Refers, contents_set_of_ne bs [] heq]
        exact hc
    refine ⟨?_, hfirst.append hrest⟩
    rw [List.map_cons, List.map_cons, List.map_append]
    exact List.cons_subset_cons _ (List.subset_append_of_subset_right _ hslots)

end

/-- The blocks that are met are those that can be reached. -/
theorem Drains.mem_visits_iff {bs left : Blocks} {root : Staged} {visits : List Slot} {ops : List Operator}
    (h : Drains bs [root] visits ops left) (b : Nat) :
    b ∈ visits.map Slot.block ↔ bs.Reaches root.refs b := by
  have hrefs : [root].flatMap Staged.refs = root.refs := List.flatMap_singleton _ _
  obtain ⟨hsub, hclosed⟩ := h.closed
  rw [hrefs] at hsub
  refine ⟨fun hb => ?_, hclosed.reaches hsub⟩
  have hreaches := h.reaches b hb
  rwa [hrefs] at hreaches

private theorem DrainsSlots.regions_forall₂ :
    ∀ {bs left : Blocks} {slots visits : List Slot} {regions : List Region},
    DrainsSlots bs slots visits regions left →
    List.Forall₂ (fun slot r => ∃ items, r = .single slot.label items) slots regions
  | _, _, _, _, _, .nil => .nil
  | _, _, _, _, _, .cons _ rest => .cons ⟨_, rfl⟩ rest.regions_forall₂

/-- What becomes of blocks and a root operator whose slots are met in the given order. -/
structure Blocks.Conserved (bs : Blocks) (root : Staged) (visits : List Slot) (op : Operator)
    (left : Blocks) : Prop where
  head : op.head = root.op.head
  regions : List.Forall₂ (fun slot r => ∃ items, r = .single slot.label items) root.slots op.regions
  operators : ((Walk.operators.regions () op.regions).map Operator.head ++ left.heads).Perm bs.heads
  length : left.length = bs.length
  emptied : ∀ b, bs.Reaches root.refs b → left.contents b = []
  kept : ∀ b, ¬ bs.Reaches root.refs b → left.contents b = bs.contents b
  numbered : op.preorder.length = visits.length
  /-- The regions in pre-order are those of the slots, and the first slot of a block has what is in it. -/
  found : ∀ k slot, visits[k]? = some slot → ∃ items, op.preorder[k]? = some (.single slot.label items) ∧
    (slot.block ∉ (visits.take k).map Slot.block →
      items.map Operator.head = (bs.contents slot.block).map (·.op.head)) ∧
    (bs.length ≤ slot.block ∨ slot.block ∈ (visits.take k).map Slot.block → items = [])

private theorem Drains.conserved {bs left : Blocks} {root : Staged} {visits : List Slot} {op : Operator}
    (h : Drains bs [root] visits [op] left) (bare : bs.Bare) (own : root.op.regions = []) :
    bs.Conserved root visits op left := by
  have hroot : ∀ staged ∈ [root], staged.op.regions = [] := by simpa using own
  obtain ⟨hheads, hfinds⟩ := h.finds bare hroot
  have hheads : op.head = root.op.head := List.singleton_inj.mp hheads
  have hregions :
      List.Forall₂ (fun slot r => ∃ items, r = .single slot.label items) root.slots op.regions := by
    cases h with
    | cons slots _ =>
      rw [own]
      exact slots.regions_forall₂
  have hpreorder : Walk.preorder.items () [op] = op.preorder := List.append_nil _
  rw [hpreorder] at hfinds
  refine ⟨hheads, hregions, ?_, ?_, fun b hb => ?_, fun b hb => ?_, hfinds.length, fun k slot hk => ?_⟩
  · have hperm := h.heads_perm bare hroot
    have hwalk : (Walk.operators.items () [op]).map Operator.head =
        op.head :: (Walk.operators.regions () op.regions).map Operator.head := by
      obtain ⟨own, regions⟩ := op
      simp [Walk.operators_cons, walk_mk, Operator.head, Operator.regions]
    rw [hwalk, hheads] at hperm
    exact hperm.cons_inv
  · rw [h.left_eq, length_without]
  · rw [h.left_eq, contents_without, if_pos ((h.mem_visits_iff b).mpr hb)]
  · rw [h.left_eq, contents_without, if_neg fun hmem => hb ((h.mem_visits_iff b).mp hmem)]
  · obtain ⟨items, hitems, hfound⟩ := hfinds.at_index hk
    rw [contents_without] at hfound
    refine ⟨items, hitems, fun hnew => ?_, fun hempty => ?_⟩
    · rwa [if_neg hnew] at hfound
    · have hnone :
          (if slot.block ∈ (visits.take k).map Slot.block then [] else bs.contents slot.block) = [] := by
        split
        · rfl
        · rename_i hnew
          exact contents_of_length_le _ _ (hempty.resolve_right hnew)
      rw [hnone] at hfound
      exact List.map_eq_nil_iff.mp hfound

/-- Assembling ends on all blocks, also where they are shared, missing or in a circle: its recursion without
a bound on the depth has one result, which is the one computed. No operator of the blocks is lost or doubled,
the blocks that can be reached are emptied and the others kept, and a slot whose block is unknown or has been
taken already has an empty region. -/
theorem assemble_conserves {bs : Blocks} {root : Staged} (bare : bs.Bare) (own : root.op.regions = []) :
    ∃ visits op left, bs.assemble root = (op, left) ∧
      (∀ visits' ops left', Drains bs [root] visits' ops left' ↔
        visits' = visits ∧ ops = [op] ∧ left' = left) ∧
      (∀ depth, bs.total < depth → assembleTo depth root bs = (op, left)) ∧
      bs.Conserved root visits op left := by
  obtain ⟨visits, hdrains⟩ := endsWithin (bs.total + 1) root bs (Nat.lt_succ_self _)
  refine ⟨visits, _, _, rfl, fun visits' ops left' => ⟨hdrains.unique, ?_⟩, fun depth hdepth => ?_,
    hdrains.conserved bare own⟩
  · rintro ⟨rfl, rfl, rfl⟩
    exact hdrains
  · obtain ⟨_, hdrains'⟩ := endsWithin depth root bs hdepth
    obtain ⟨-, hop, hleft⟩ := hdrains.unique hdrains'
    exact Prod.ext (List.singleton_inj.mp hop) hleft

private theorem Blocks.bare_of_forall {bs : Blocks}
    (h : ∀ items ∈ bs, ∀ staged ∈ items, staged.op.regions = []) :
    bs.Bare := by
  intro b staged hstaged
  cases hb : bs[b]? with
  | none => simp [contents, hb] at hstaged
  | some items => exact h items (List.mem_of_getElem? hb) staged (by simpa [contents, hb] using hstaged)

/-- Two blocks that refer to each other and to themselves, a block of a number that there is not, and a block
that nothing refers to. -/
def tangledBlocks : Blocks :=
  [[.ofHead (Head.py "while") [⟨1, none⟩, ⟨0, none⟩], .ofHead (Head.py "pass")],
    [.ofHead (Head.py "if") [⟨0, none⟩, ⟨7, none⟩, ⟨1, none⟩], .ofHead (Head.py "break")],
    [.ofHead (Head.py "return")]]

def tangledRoot : Staged := .ofHead (Head.builtin "module") [⟨1, none⟩, ⟨0, none⟩, ⟨1, none⟩]

theorem tangledBlocks_conserved : ∃ visits op left, tangledBlocks.assemble tangledRoot = (op, left) ∧
    (op.preorder.map fun r => r.firstItems.map (·.head.opcode)) = [["py.if", "py.break"],
      ["py.while", "py.pass"], [], [], [], [], [], []] ∧
    left.map (·.map (·.op.head.opcode)) = [[], [], ["py.return"]] ∧
    (∀ visits' ops left', Drains tangledBlocks [tangledRoot] visits' ops left' ↔
      visits' = visits ∧ ops = [op] ∧ left' = left) ∧
    (∀ depth, tangledBlocks.total < depth → assembleTo depth tangledRoot tangledBlocks = (op, left)) ∧
    tangledBlocks.Conserved tangledRoot visits op left := by
  have bare : tangledBlocks.Bare :=
    Blocks.bare_of_forall (by simp [tangledBlocks, Staged.ofHead, Operator.regions])
  obtain ⟨visits, op, left, hassemble, hdrains, hdepth, hconserved⟩ := assemble_conserves bare
    (show tangledRoot.op.regions = [] from rfl)
  refine ⟨visits, op, left, hassemble, ?_, ?_, hdrains, hdepth, hconserved⟩
  · rw [← show (tangledBlocks.assemble tangledRoot).1 = op by rw [hassemble]]
    decide +kernel
  · rw [← show (tangledBlocks.assemble tangledRoot).2 = left by rw [hassemble]]
    decide +kernel

end RegionIR
