import RegionIR.Proofs.Shape
/-!
# Blocks and the regions of the tree

At the end of a pass the blocks form a tree: every block that has been opened belongs to one region of one
operator, and that operator stands in a block of a smaller number. Assembling goes through this tree once
and leaves all blocks empty. The block with the number `k` becomes region `k` of the tree in pre-order, and
holds what has been appended to it, in the order in which that happened.
-/
namespace RegionIR

open Lower (Runs)
open Operator

namespace Walk

def preorder : Walk Unit Region where
  atRegion _ r := [r]

@[simp] theorem preorder_single (label : Option Label) (ops : List Operator) (rs : List Region) :
    preorder.regions () (.single label ops :: rs) =
      .single label ops :: (preorder.items () ops ++ preorder.regions () rs) := by
  simp [regions_single, preorder]

end Walk

namespace Operator

/-- The regions below an operator, each before those inside it. -/
def preorder (op : Operator) : List Region := Walk.preorder.operator () op

theorem preorder_mk (head : Head) (regions : List Region) :
    preorder (.mk head regions) = Walk.preorder.regions () regions := rfl

theorem preorder_cons (op : Operator) (rest : List Operator) :
    Walk.preorder.items () (op :: rest) = op.preorder ++ Walk.preorder.items () rest := rfl

end Operator

/-- The numbers of the blocks that a staged operator refers to. -/
def Staged.refs (staged : Staged) : List Nat := staged.slots.map Slot.block

private theorem Staged.mem_refs {items : List Staged} {slot : Slot}
    (h : slot ∈ items.flatMap Staged.slots) :
    slot.block ∈ items.flatMap Staged.refs := by
  obtain ⟨staged, hstaged, hslot⟩ := List.mem_flatMap.mp h
  exact List.mem_flatMap.mpr ⟨staged, hstaged, List.mem_map_of_mem hslot⟩

def Staged.built (region : Nat → Region) (staged : Staged) : Operator :=
  .mk staged.op.head (staged.slots.map fun slot => region slot.block)

namespace Blocks

def segment (F : Blocks) (lo hi : Nat) : List Staged := (List.range' lo (hi - lo)).flatMap F.contents

/-- No operator of the blocks has regions of its own yet. -/
def Bare (F : Blocks) : Prop := ∀ b, ∀ staged ∈ F.contents b, staged.op.regions = []

private theorem range'_split {lo mid hi : Nat} (h : lo ≤ mid) (h' : mid ≤ hi) :
    List.range' lo (hi - lo) = List.range' lo (mid - lo) ++ List.range' mid (hi - mid) := by
  have hmid : lo + (mid - lo) = mid := by omega
  have hlength : hi - lo = (mid - lo) + (hi - mid) := by omega
  rw [hlength, ← List.range'_append_1, hmid]

private theorem range'_succ_left {lo hi : Nat} (h : lo < hi) :
    List.range' lo (hi - lo) = lo :: List.range' (lo + 1) (hi - (lo + 1)) := by
  rw [show hi - lo = (hi - (lo + 1)) + 1 by omega, List.range'_succ]

@[simp] theorem segment_self (F : Blocks) (n : Nat) : F.segment n n = [] := by
  simp [segment]

private theorem segment_split (F : Blocks) {lo mid hi : Nat} (h : lo ≤ mid) (h' : mid ≤ hi) :
    F.segment lo hi = F.segment lo mid ++ F.segment mid hi := by
  rw [segment, range'_split h h', List.flatMap_append]
  rfl

private theorem segment_succ (F : Blocks) {lo hi : Nat} (h : lo < hi) :
    F.segment lo hi = F.contents lo ++ F.segment (lo + 1) hi := by
  rw [segment, range'_succ_left h, List.flatMap_cons]
  rfl

theorem segment_all (F : Blocks) : F.segment 0 F.length = F.flatten := by
  have hcontents : (List.range' 0 F.length).map F.contents = F := by
    apply List.ext_getElem
    · simp
    · intro b hb hb'
      simp [contents, List.getElem?_eq_getElem hb']
  rw [segment, Nat.sub_zero, List.flatMap_def, hcontents]

end Blocks

open Blocks

private theorem perm_pairs {α : Type} {a b c d as bs : List α} (first : (a ++ c).Perm as)
    (second : (b ++ d).Perm bs) : (a ++ b ++ (c ++ d)).Perm (as ++ bs) := by
  have hswap : (a ++ b ++ (c ++ d)).Perm (a ++ c ++ (b ++ d)) := by
    rw [List.append_assoc, List.append_assoc]
    exact (List.perm_append_comm_assoc b c d).append_left a
  exact hswap.trans (first.append second)

mutual

/-- The blocks from `lo` up to `hi` are referred to once each. -/
theorem Unfolds.refs_perm {F : Blocks} : ∀ {lo hi : Nat} {items : List Staged} {ops : List Operator},
    Unfolds F lo items hi ops →
    (items.flatMap Staged.refs ++ (F.segment lo hi).flatMap Staged.refs).Perm (List.range' lo (hi - lo))
  | _, _, _, _, .nil => by simp
  | _, _, _, _, .cons slots rest => by
    rw [F.segment_split slots.le rest.le, range'_split slots.le rest.le, List.flatMap_cons,
      List.flatMap_append]
    exact perm_pairs slots.refs_perm rest.refs_perm

theorem UnfoldsSlots.refs_perm {F : Blocks} : ∀ {lo hi : Nat} {slots : List Slot} {regions : List Region},
    UnfoldsSlots F lo slots hi regions →
    (slots.map Slot.block ++ (F.segment lo hi).flatMap Staged.refs).Perm (List.range' lo (hi - lo))
  | _, _, _, _, .nil => by simp
  | lo, hi, _, _, @UnfoldsSlots.cons _ _ mid _ label slots regions ops inner rest => by
    have hmid := inner.le
    have hhi := rest.le
    rw [range'_succ_left (by omega), F.segment_succ (by omega), F.segment_split hmid hhi,
      range'_split hmid hhi, List.flatMap_append, List.flatMap_append, List.map_cons, List.cons_append]
    refine List.Perm.cons lo ?_
    rw [← List.append_assoc ((F.contents lo).flatMap Staged.refs)]
    exact (List.perm_append_comm_assoc _ _ _).trans (inner.refs_perm.append rest.refs_perm)

end

private theorem Unfolds.refs_mem {F : Blocks} {lo hi : Nat} {items : List Staged} {ops : List Operator}
    (h : Unfolds F lo items hi ops) {staged : Staged} (hstaged : staged ∈ items) {slot : Slot}
    (hslot : slot ∈ staged.slots) : lo ≤ slot.block ∧ slot.block < hi := by
  have hle := h.le
  have hmem := Staged.mem_refs (List.mem_flatMap.mpr ⟨staged, hstaged, hslot⟩)
  have hrange := h.refs_perm.subset (List.mem_append_left _ hmem)
  rw [List.mem_range'_1] at hrange
  omega

mutual

theorem Unfolds.ascending {F : Blocks} : ∀ {lo hi : Nat} {items : List Staged} {ops : List Operator},
    Unfolds F lo items hi ops → ∀ b, lo ≤ b → b < hi →
    ∀ staged ∈ F.contents b, ∀ slot ∈ staged.slots, b < slot.block
  | _, _, _, _, .nil, b, hlo, hhi => by omega
  | _, _, _, _, @Unfolds.cons _ _ mid _ _ _ _ _ slots rest, b, hlo, hhi => by
    rcases Nat.lt_or_ge b mid with hmid | hmid
    · exact slots.ascending b hlo hmid
    · exact rest.ascending b hmid hhi

theorem UnfoldsSlots.ascending {F : Blocks} : ∀ {lo hi : Nat} {slots : List Slot} {regions : List Region},
    UnfoldsSlots F lo slots hi regions → ∀ b, lo ≤ b → b < hi →
    ∀ staged ∈ F.contents b, ∀ slot ∈ staged.slots, b < slot.block
  | _, _, _, _, .nil, b, hlo, hhi => by omega
  | lo, hi, _, _, @UnfoldsSlots.cons _ _ mid _ label slots regions ops inner rest, b, hlo, hhi => by
    rcases Nat.lt_or_ge b mid with hmid | hmid
    · rcases Nat.eq_or_lt_of_le hlo with rfl | hlt
      · intro staged hstaged slot hslot
        exact (inner.refs_mem hstaged hslot).1
      · exact inner.ascending b hlt hmid
    · exact rest.ascending b hmid hhi

end

mutual

theorem Unfolds.length_preorder {F : Blocks} (bare : F.Bare) : ∀ {lo hi : Nat} {items : List Staged}
    {ops : List Operator}, Unfolds F lo items hi ops → (∀ staged ∈ items, staged.op.regions = []) →
    lo + (Walk.preorder.items () ops).length = hi
  | _, _, _, _, .nil, _ => by simp
  | _, _, _, _, @Unfolds.cons _ _ _ _ staged items regions ops slots rest, hitems => by
    have hslots := slots.length_preorder bare
    have hrest := rest.length_preorder bare fun st hst => hitems st (List.mem_cons_of_mem _ hst)
    rw [preorder_cons, preorder_mk, hitems staged List.mem_cons_self, List.nil_append, List.length_append]
    omega

theorem UnfoldsSlots.length_preorder {F : Blocks} (bare : F.Bare) : ∀ {lo hi : Nat} {slots : List Slot}
    {regions : List Region}, UnfoldsSlots F lo slots hi regions →
    lo + (Walk.preorder.regions () regions).length = hi
  | _, _, _, _, .nil => by simp
  | lo, _, _, _, .cons inner rest => by
    have hinner := inner.length_preorder bare (bare lo)
    have hrest := rest.length_preorder bare
    rw [Walk.preorder_single, List.length_cons, List.length_append]
    omega

end

/-- The region of a slot holds the operators of its block, each with its regions. -/
def Slot.Fills (slot : Slot) (F : Blocks) (region : Nat → Region) : Prop :=
  region slot.block = .single slot.label ((F.contents slot.block).map (Staged.built region))

mutual

/-- If the regions in pre-order have the numbers from `lo` up to `hi`, they are those of the blocks. -/
theorem Unfolds.built {F : Blocks} (bare : F.Bare) {region : Nat → Region} : ∀ {lo hi : Nat}
    {items : List Staged} {ops : List Operator}, Unfolds F lo items hi ops →
    (∀ staged ∈ items, staged.op.regions = []) →
    Walk.preorder.items () ops = (List.range' lo (hi - lo)).map region →
    ops = items.map (Staged.built region) ∧
      ∀ slot ∈ (items ++ F.segment lo hi).flatMap Staged.slots, slot.Fills F region
  | _, _, _, _, .nil, _, _ => by simp
  | lo, hi, _, _, @Unfolds.cons _ _ mid _ staged items regions ops slots rest, hitems, hpre => by
    have hstaged := hitems staged List.mem_cons_self
    have hothers : ∀ st ∈ items, st.op.regions = [] := fun st hst => hitems st (List.mem_cons_of_mem _ hst)
    have hlength := slots.length_preorder bare
    rw [preorder_cons, preorder_mk, hstaged, List.nil_append, range'_split slots.le rest.le,
      List.map_append] at hpre
    obtain ⟨hfirst, hsecond⟩ := List.append_inj hpre (by
      rw [List.length_map, List.length_range']
      omega)
    obtain ⟨hregions, hslots⟩ := slots.built bare hfirst
    obtain ⟨hops, hrest⟩ := rest.built bare hothers hsecond
    refine ⟨?_, ?_⟩
    · rw [List.map_cons, ← hops, hstaged, List.nil_append, hregions]
      rfl
    · intro slot hslot
      rw [F.segment_split slots.le rest.le] at hslot
      simp only [List.flatMap_append, List.flatMap_cons, List.mem_append] at hslot hslots hrest
      rcases hslot with (hslot | hslot) | hslot | hslot
      · exact hslots slot (.inl hslot)
      · exact hrest slot (.inl hslot)
      · exact hslots slot (.inr hslot)
      · exact hrest slot (.inr hslot)

theorem UnfoldsSlots.built {F : Blocks} (bare : F.Bare) {region : Nat → Region} : ∀ {lo hi : Nat}
    {slots : List Slot} {regions : List Region}, UnfoldsSlots F lo slots hi regions →
    Walk.preorder.regions () regions = (List.range' lo (hi - lo)).map region →
    regions = slots.map (fun slot => region slot.block) ∧
      ∀ slot ∈ slots ++ (F.segment lo hi).flatMap Staged.slots, slot.Fills F region
  | _, _, _, _, .nil, _ => by simp
  | lo, hi, _, _, @UnfoldsSlots.cons _ _ mid _ label slots regions ops inner rest, hpre => by
    have hmid := inner.le
    have hhi := rest.le
    have hlength := inner.length_preorder bare (bare lo)
    rw [Walk.preorder_single, range'_succ_left (by omega), range'_split hmid hhi, List.map_cons,
      List.map_append, List.cons.injEq] at hpre
    obtain ⟨hlo, hpre⟩ := hpre
    obtain ⟨hfirst, hsecond⟩ := List.append_inj hpre (by
      rw [List.length_map, List.length_range']
      omega)
    obtain ⟨hops, hinner⟩ := inner.built bare (bare lo) hfirst
    obtain ⟨hregions, hrest⟩ := rest.built bare hsecond
    refine ⟨?_, ?_⟩
    · rw [List.map_cons, ← hregions, hlo]
    · intro slot hslot
      rw [F.segment_succ (show lo < hi by omega), F.segment_split hmid hhi] at hslot
      simp only [List.flatMap_append, List.mem_append, List.cons_append, List.mem_cons] at hslot hinner hrest
      rcases hslot with rfl | hslot | hslot | hslot | hslot
      · rw [Slot.Fills, ← hlo, ← hops]
      · exact hrest slot (.inl hslot)
      · exact hinner slot (.inl hslot)
      · exact hinner slot (.inr hslot)
      · exact hrest slot (.inr hslot)

end

mutual

theorem Unfolds.heads_perm {F : Blocks} (bare : F.Bare) : ∀ {lo hi : Nat} {items : List Staged}
    {ops : List Operator}, Unfolds F lo items hi ops → (∀ staged ∈ items, staged.op.regions = []) →
    ((Walk.operators.items () ops).map Operator.head).Perm ((items ++ F.segment lo hi).map (·.op.head))
  | _, _, _, _, .nil, _ => by simp
  | _, _, _, _, @Unfolds.cons _ _ _ _ staged items regions ops slots rest, hitems => by
    have hslots := slots.heads_perm bare
    have hrest := rest.heads_perm bare fun st hst => hitems st (List.mem_cons_of_mem _ hst)
    rw [Walk.operators_cons, hitems staged List.mem_cons_self, List.nil_append, walk_mk, List.map_append,
      F.segment_split slots.le rest.le, List.map_cons, List.cons_append, List.cons_append, List.map_cons,
      List.map_append, List.map_append]
    refine List.Perm.cons _ ?_
    rw [List.map_append] at hrest
    exact (hslots.append hrest).trans (List.perm_append_comm_assoc _ _ _)

theorem UnfoldsSlots.heads_perm {F : Blocks} (bare : F.Bare) : ∀ {lo hi : Nat} {slots : List Slot}
    {regions : List Region}, UnfoldsSlots F lo slots hi regions →
    ((Walk.operators.regions () regions).map Operator.head).Perm ((F.segment lo hi).map (·.op.head))
  | _, _, _, _, .nil => by simp
  | lo, hi, _, _, @UnfoldsSlots.cons _ _ mid _ label slots regions ops inner rest => by
    have hmid := inner.le
    have hhi := rest.le
    rw [Walk.operators_single, List.map_append, F.segment_succ (show lo < hi by omega),
      F.segment_split hmid hhi, ← List.append_assoc, List.map_append]
    exact (inner.heads_perm bare (bare lo)).append (rest.heads_perm bare)

end

def Operator.regionAt (op : Operator) (k : Nat) : Region := op.preorder.getD k (.mk [])

/-- After the given changes to the blocks, the operator is what the root and the blocks assemble to:
nothing is lost and nothing is there twice. -/
structure Blocks.Assembly (bs : Blocks) (changes : List Change) (root : Staged) (op : Operator) : Prop where
  opened : bs.length = Change.openings changes
  references : ((root :: bs.flatten).flatMap Staged.refs).Perm (List.range bs.length)
  ascending : ∀ b, ∀ staged ∈ bs.contents b, ∀ slot ∈ staged.slots, b < slot.block
  assembled : bs.assemble root = (op, List.replicate bs.length [])
  numbered : op.preorder.length = bs.length
  built : op = root.built op.regionAt
  -- Every block has such a slot, since the references are all the numbers.
  chronological : ∀ slot ∈ (root :: bs.flatten).flatMap Staged.slots, op.preorder[slot.block]? =
    some (.single slot.label ((Change.emittedInto slot.block changes).map (Staged.built op.regionAt)))
  once : (op.walk.map Operator.head).Perm ((root :: Change.emitted changes).map (·.op.head))

private theorem Operator.preorder_eq_map (op : Operator) :
    op.preorder = (List.range' 0 op.preorder.length).map op.regionAt := by
  refine List.ext_getElem (by simp) fun k hk hk' => ?_
  simp [regionAt, hk]

theorem UnfoldsSlots.assembly {α : Type} {P : Staged → Prop} {x : Lower α} {changes : List Change}
    {a : α} {t : State} {h : Head} {slots : List Slot} {regions : List Region}
    (records : Lower.Records P x {} changes a t) (bare : t.blocks.Bare)
    (unfolds : UnfoldsSlots t.blocks 0 slots t.blocks.length regions) :
    t.blocks.Assembly changes (.ofHead h slots) (.mk h regions) := by
  have hlength : (preorder (.mk h regions)).length = t.blocks.length := by
    rw [preorder_mk, ← unfolds.length_preorder bare, Nat.zero_add]
  have hnumbers : Walk.preorder.regions () regions =
      (List.range' 0 (t.blocks.length - 0)).map (regionAt (.mk h regions)) := by
    rw [Nat.sub_zero, ← hlength]
    exact preorder_eq_map (.mk h regions)
  obtain ⟨hregions, hfills⟩ := unfolds.built bare hnumbers
  have hrefs := unfolds.refs_perm
  have hheads := unfolds.heads_perm bare
  rw [Blocks.segment_all] at hfills hrefs hheads
  rw [Nat.sub_zero, ← List.range_eq_range'] at hrefs
  refine ⟨?_, hrefs, ?_, Blocks.assemble_eq unfolds, hlength, ?_, ?_, ?_⟩
  · rw [records.length]
    exact Nat.zero_add _
  · intro b staged hstaged
    refine unfolds.ascending b (Nat.zero_le b) ?_ staged hstaged
    -- Beyond the last block there is nothing.
    by_contra hb
    simp [Blocks.contents, List.getElem?_eq_none (Nat.le_of_not_lt hb)] at hstaged
  · exact congrArg (Operator.mk h) hregions
  · intro slot hslot
    have hfills : slot.Fills t.blocks _ := hfills slot hslot
    have hblock : slot.block < (preorder (.mk h regions)).length := by
      rw [hlength, ← List.mem_range]
      exact hrefs.subset (Staged.mem_refs hslot)
    rw [← records.contents_of_empty, ← hfills, regionAt, List.getD_eq_getElem?_getD,
      List.getElem?_eq_getElem hblock, Option.getD_some]
  · rw [walk_mk, List.map_cons, List.map_cons]
    exact (hheads.trans (records.total.map _)).cons h

private theorem Lower.runs_module {stmts : List Stmt} {slot : Slot} {t : State} {op : Operator}
    {bs : Blocks} (run : Runs (region (body stmts)) {} slot t)
    (assembled : t.blocks.assemble (.ofHead (Head.builtin "module") [slot]) = (op, bs)) :
    ∃ s, Runs (module stmts) {} op s ∧ s.blocks = bs := by
  refine ⟨{ t.record (.lowered stmts.length) with blocks := bs }, ?_, rfl⟩
  simp only [module, runs_bind, runs_modify, runs_step]
  refine ⟨slot, t, run, (), _, rfl, ?_⟩
  rw [show (t.record (.lowered stmts.length)).blocks = t.blocks from rfl, assembled]

/-- For every accepted module the blocks at the end of the pass form a tree, and assembling them goes
through it once: every block belongs to one region, under an operator of a block with a smaller number,
every operator comes out once, block `k` as region `k` in pre-order and with its operators in the order of
their emission, and all blocks are empty afterwards. -/
theorem blocks_assembled_in_preorder {stmts : List Stmt} {op : Operator}
    (accepted : (SourceUnit.module stmts).lower = .ok op) :
    ∃ changes t s, Lower.Logs (Lower.region (Lower.body stmts)) {} changes ⟨0, none⟩ t ∧
      t.blocks.Assembly changes (.ofHead (Head.builtin "module") [⟨0, none⟩]) op ∧
      Runs (Lower.module stmts) {} op s ∧ s.blocks = List.replicate t.blocks.length [] := by
  obtain ⟨changes, t, ops, records, unfolds, rfl⟩ := SourceUnit.records_of_lower accepted
  have bare : t.blocks.Bare := fun b staged hstaged => (records.all b staged hstaged).regions
  have hassembly := unfolds.assembly (h := Head.builtin "module") records bare
  obtain ⟨s, hrun, hblocks⟩ := Lower.runs_module records.logs.runs hassembly.assembled
  exact ⟨changes, t, s, records.logs, hassembly, hrun, hblocks⟩

/-- A method whose loop moves a variable to memory: the `store` goes to block 2, which is the entry block,
while block 5 inside the loop is being lowered. -/
def countingMethodProgram : List Stmt :=
  [.ofForm (.classDef "Counter" [] [] [.function "count" [⟨"items", none⟩] none
    [.assign "total" (.ofInt 0),
      .forIn "item" (.ofName "items")
        [.ifElse (.ofName "item") [.augAssign "total" .add (.ofInt 1)] [.ofForm .pass]],
      .ret (some (.ofName "total"))]] [])]

theorem countingMethodProgram_assembled :
    ∃ op changes t s, (SourceUnit.module countingMethodProgram).lower = .ok op ∧
      (op.preorder.map fun r => r.firstItems.map (·.head.opcode)) = [["py.class"], ["builtin.func"],
        ["py.constant", "py.assign", "py.store", "py.for", "py.load", "py.return"], ["py.yield"],
        ["py.load", "py.if"], ["py.constant", "py.augAssign"], ["py.pass"]] ∧
      Lower.Logs (Lower.region (Lower.body countingMethodProgram)) {} changes ⟨0, none⟩ t ∧
      t.blocks.Assembly changes (.ofHead (Head.builtin "module") [⟨0, none⟩]) op ∧
      Runs (Lower.module countingMethodProgram) {} op s ∧ s.blocks = List.replicate t.blocks.length [] := by
  obtain ⟨op, accepted, hopcodes⟩ := SourceUnit.exists_of_view
    (show (SourceUnit.module countingMethodProgram).lower.toOption.map
      (fun op => op.preorder.map fun r => r.firstItems.map (·.head.opcode)) = some [["py.class"],
        ["builtin.func"], ["py.constant", "py.assign", "py.store", "py.for", "py.load", "py.return"],
        ["py.yield"], ["py.load", "py.if"], ["py.constant", "py.augAssign"], ["py.pass"]] by
      decide +kernel)
  obtain ⟨changes, t, s, logs, assembly, run, hblocks⟩ := blocks_assembled_in_preorder accepted
  exact ⟨op, changes, t, s, accepted, hopcodes, logs, assembly, run, hblocks⟩

end RegionIR
