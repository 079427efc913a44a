import RegionIR.Proofs.Promotion
/-!
# Memory is written before it is read

Lowering loads a variable because it has moved to memory, and moving is a change of state, not an
operator. Here the two are tied together: in every scope of a finished tree, in pre-order, the operators
before a load hold one that writes what it loads.
-/
namespace RegionIR

namespace Head

def target? (h : Head) : Option String :=
  match h.attrs.get? "target" with
  | some (.text x) => some x
  | _ => none

def writesMemory (a : String) (h : Head) : Bool :=
  h.isStore a ∨ h.dialect = .py ∧ (h.name = "augAssign" ∨ h.name = "for") ∧ h.target? = some a

private theorem writesMemory_storeHead (a : String) (value : ValueId) (ty : Ty) :
    (storeHead a value ty).writesMemory a = true := by
  simp [writesMemory]

private theorem writesMemory_augHead (a : String) (op : BinaryOperator) (x : Operand) :
    (augHead a op x).writesMemory a = true := by
  simp [writesMemory, target?, augHead, Attrs.get?_set_of_ne]

private theorem writesMemory_forHead (a : String) :
    ((py "for").withAttr "target" (.text a)).writesMemory a = true := by
  simp [writesMemory, target?]

end Head

namespace Operator

def ownsScope (op : Operator) : Bool := op.head.dialect = .builtin

/-- The operators of a tree that have a scope of their own: the module and its functions. -/
def scopes (op : Operator) : List Operator := op.walk.filter ownsScope

private theorem scopes_of_builtin {own : Head} (h : own.dialect = .builtin) (regions : List Region) :
    scopes (.mk own regions) = .mk own regions :: (Walk.operators.regions () regions).filter ownsScope := by
  rw [scopes, walk_mk, List.filter_cons_of_pos (by simp [ownsScope, head, h])]

private theorem owned_regions (blocks : List Block) (rest : List Region) :
    Walk.owned.regions () (.mk blocks :: rest) =
      Walk.owned.blocks () blocks ++ Walk.owned.regions () rest := rfl

private theorem owned_blocks (label : Option Label) (items : List Operator) (rest : List Block) :
    Walk.owned.blocks () (.mk label items :: rest) =
      Walk.owned.items () items ++ Walk.owned.blocks () rest := by
  cases label <;> rfl

private theorem perm_sorted {hs ks own own' inner inner' : List Head} (h : hs.Perm (own ++ inner))
    (k : ks.Perm (own' ++ inner')) : (hs ++ ks).Perm ((own ++ own') ++ (inner ++ inner')) := by
  refine (h.append k).trans ?_
  rw [List.append_assoc, List.append_assoc]
  exact (List.perm_append_comm_assoc inner own' inner').append_left own

mutual

/-- Every operator belongs to one scope: that of the operator it starts from, or one further in. -/
theorem walk_perm : (op : Operator) →
    (op.walk.map head).Perm (Walk.owned.operator () op ++ (op.walk.filter ownsScope).flatMap ownHeads)
  | .mk own regions => by
    have hregions := walkRegions_perm regions
    rw [walk_mk, Walk.owned_operator, List.map_cons, List.filter_cons]
    by_cases hown : own.dialect = .builtin
    · rw [if_pos hown, if_pos (by simp [ownsScope, head, hown]), List.flatMap_cons]
      exact hregions.cons own
    · rw [if_neg hown, if_neg (by simp [ownsScope, head, hown])]
      exact hregions.cons own
termination_by structural op => op

theorem walkRegions_perm : (rs : List Region) → ((Walk.operators.regions () rs).map head).Perm
    (Walk.owned.regions () rs ++ ((Walk.operators.regions () rs).filter ownsScope).flatMap ownHeads)
  | [] => .nil
  | .mk blocks :: rest => by
    rw [Walk.operators_regions, owned_regions, List.map_append, List.filter_append,
      List.flatMap_append]
    exact perm_sorted (walkBlocks_perm blocks) (walkRegions_perm rest)
termination_by structural rs => rs

theorem walkBlocks_perm : (bs : List Block) → ((Walk.operators.blocks () bs).map head).Perm
    (Walk.owned.blocks () bs ++ ((Walk.operators.blocks () bs).filter ownsScope).flatMap ownHeads)
  | [] => .nil
  | .mk label items :: rest => by
    rw [Walk.operators_blocks, owned_blocks, List.map_append, List.filter_append,
      List.flatMap_append]
    exact perm_sorted (walkAll_perm items) (walkBlocks_perm rest)
termination_by structural bs => bs

theorem walkAll_perm : (ops : List Operator) → ((Walk.operators.items () ops).map head).Perm
    (Walk.owned.items () ops ++ ((Walk.operators.items () ops).filter ownsScope).flatMap ownHeads)
  | [] => .nil
  | op :: rest => by
    rw [Walk.operators_cons, Walk.items_cons, List.map_append, List.filter_append, List.flatMap_append]
    exact perm_sorted (walk_perm op) (walkAll_perm rest)
termination_by structural ops => ops

end

end Operator

open Operator

/-- Each load in a list of operators finds its variable known, or written by an operator before it. -/
def WrittenFirst (known : String → Prop) (hs : List Head) : Prop :=
  ∀ (a : String) (before : List Head) (h : Head) (after : List Head), hs = before ++ h :: after →
    h.isLoad a = true → known a ∨ ∃ w ∈ before, w.writesMemory a = true

namespace WrittenFirst

variable {known known' : String → Prop} {hs ks : List Head}

private theorem of_known (h : ∀ x ∈ hs, ∀ a, x.isLoad a = true → known a) : WrittenFirst known hs := by
  intro a before x after hsplit hload
  exact .inl (h x (by simp [hsplit]) a hload)

theorem mono (h : WrittenFirst known hs) (imp : ∀ a, known a → known' a) : WrittenFirst known' hs := by
  intro a before x after hsplit hload
  exact (h a before x after hsplit hload).imp_left (imp a)

theorem append (h : WrittenFirst known hs)
    (k : WrittenFirst (fun a => known a ∨ ∃ w ∈ hs, w.writesMemory a = true) ks) :
    WrittenFirst known (hs ++ ks) := by
  intro a before x after hsplit hload
  rcases List.append_eq_append_iff.mp hsplit with ⟨mid, rfl, hks⟩ | ⟨mid, rfl, hmid⟩
  · rcases k a mid x after hks hload with (hknown | ⟨w, hw, hwrites⟩) | ⟨w, hw, hwrites⟩
    · exact .inl hknown
    · exact .inr ⟨w, List.mem_append_left _ hw, hwrites⟩
    · exact .inr ⟨w, List.mem_append_right _ hw, hwrites⟩
  · cases mid with
    | nil =>
      simp only [List.nil_append] at hmid
      rcases k a [] x after hmid.symm hload with (hknown | ⟨w, hw, hwrites⟩) | ⟨w, hw, -⟩
      · exact .inl hknown
      · exact .inr ⟨w, by simpa using hw, hwrites⟩
      · simp at hw
    | cons y mid =>
      rw [List.cons_append, List.cons.injEq] at hmid
      obtain ⟨rfl, -⟩ := hmid
      exact h a before x mid rfl hload

end WrittenFirst

/-- The operators `hs`, put in between the states `s` and `t`, load only what is in memory at `s` or
written among them, and write what has moved to memory by `t`. -/
structure Serves (s : State) (hs : List Head) (t : State) : Prop where
  loads : WrittenFirst (fun a => s.home a = .memory) hs
  moved : ∀ a, t.home a = .memory → s.home a = .memory ∨ ∃ w ∈ hs, w.writesMemory a = true

namespace Serves

variable {s t u v : State} {hs ks : List Head}

theorem refl (s : State) : Serves s [] s := by
  refine ⟨.of_known ?_, ?_⟩
  · simp
  · intro a hm
    exact .inl hm

theorem trans (h : Serves s hs t) (k : Serves t ks u) : Serves s (hs ++ ks) u where
  loads := h.loads.append (k.loads.mono h.moved)
  moved a hm := by
    rcases k.moved a hm with ht | ⟨w, hw, hwrites⟩
    · rcases h.moved a ht with hs | ⟨w, hw, hwrites⟩
      · exact .inl hs
      · exact .inr ⟨w, List.mem_append_left _ hw, hwrites⟩
    · exact .inr ⟨w, List.mem_append_right _ hw, hwrites⟩

theorem congr (h : Serves s hs t) (start : ∀ a, u.home a = s.home a) (finish : ∀ a, v.home a = t.home a) :
    Serves u hs v where
  loads := h.loads.mono fun a hm => by rwa [start]
  moved a hm := by
    rw [finish] at hm
    rw [start]
    exact h.moved a hm

private theorem still (h : Serves s hs t) (same : ∀ a, t.home a = s.home a) : Serves s hs s :=
  h.congr (fun _ => rfl) fun a => (same a).symm

private theorem of_no_loads (loads : ∀ x ∈ hs, ∀ a, x.isLoad a = false)
    (moved : ∀ a, t.home a = .memory → s.home a = .memory ∨ ∃ w ∈ hs, w.writesMemory a = true) :
    Serves s hs t := by
  refine ⟨.of_known ?_, moved⟩
  intro x hx a hload
  rw [loads x hx a] at hload
  exact absurd hload (by decide)

private theorem operator {own : Head} (loads : ∀ a, own.isLoad a = false)
    (moved : ∀ a, t.home a = .memory → s.home a = .memory ∨ own.writesMemory a = true) :
    Serves s [own] t := by
  refine .of_no_loads (by simpa using loads) ?_
  intro a hm
  rcases moved a hm with h | h
  · exact .inl h
  · exact .inr ⟨own, by simp, h⟩

private theorem lates (s : State) (ls : List Late) : Serves s (ls.map Late.head) s := by
  refine .of_no_loads ?_ fun a hm => .inl hm
  intro x hx a
  obtain ⟨l, -, rfl⟩ := List.mem_map.mp hx
  simp [Late.head, storeHead, Head.isLoad]

end Serves

/-- A straight line loads only what is in memory already. -/
theorem Flat.serves {s t : State} {reads : List String} {hs : List Head} {pool : List ValueId}
    (flat : Flat s reads hs pool t) : Serves s hs t := by
  refine ⟨.of_known ?_, fun a hm => .inl (by rwa [flat.appended.home] at hm)⟩
  induction flat with
  | start => simp
  | @load _ _ _ t name flat home ih =>
    intro x hx a hload
    rcases List.mem_append.mp hx with hx | hx
    · exact ih x hx a hload
    · rw [List.mem_singleton.mp hx, isLoad_loadHead, decide_eq_true_iff] at hload
      rwa [← hload, ← flat.appended.home]
  | value flat home ih => exact ih
  | @op _ _ _ t h ty flat computes known ih =>
    intro x hx a hload
    rcases List.mem_append.mp hx with hx | hx
    · exact ih x hx a hload
    · obtain ⟨-, hno, -⟩ :=
        Head.counts_of_notMem a (computes.notMem_binding (.numbered t.counter) ty)
      rw [List.mem_singleton.mp hx, hno] at hload
      exact absurd hload (by decide)
  | drop flat known used ih => exact ih

private theorem State.assign_writes (m : State) (name : String) (x : Operand) (declared : Option Ty)
    (a : String) (h : (m.assign name x declared).2.home a = .memory) :
    m.home a = .memory ∨ (m.assign name x declared).1.writesMemory a = true := by
  by_cases ha : a = name
  · subst ha
    obtain ⟨value, ty, -, -, write⟩ | ⟨-, hown, -⟩ := m.write_assign a x declared
    · rw [write.defined.2.1] at h
      exact Home.noConfusion h
    · rw [hown]
      exact .inr (Head.writesMemory_storeHead a x.1 x.2)
  · obtain ⟨value, ty, -, -, write⟩ | ⟨-, -, write⟩ := m.write_assign name x declared
    · rw [write.home_of_ne ha] at h
      exact .inl h
    · rw [write.home_of_ne ha] at h
      exact .inl h

private theorem State.writeThrough_moves (m : State) (name a : String)
    (h : (m.writeThrough name).home a = .memory) : m.home a = .memory ∨ a = name := by
  rw [(m.write_writeThrough name).moves.1 a] at h
  split at h
  · rename_i ha
    exact .inr ha
  · exact .inl h

private theorem Settles.not_load {m t : State} {args : List ValueId} {writes : List Act} {own : Head}
    (h : Settles m args writes own t) (a : String) : own.isLoad a = false := by
  cases h with
  | plain quiet _ => exact (Head.counts_of_notMem a quiet.name).2.1
  | define _ opcode _ _ _ => rcases opcode with h | h <;> simp [Head.isLoad, h]
  | store _ _ _ => simp [storeHead, Head.isLoad]
  | through quiet _ _ => exact (Head.counts_of_notMem a quiet.name).2.1

private theorem Simple.writes {s t : State} {st : Stmt} {own : Head} (one : Simple s st own t)
    (a : String) (h : t.home a = .memory) : s.home a = .memory ∨ own.writesMemory a = true := by
  cases one with
  | ret run =>
    obtain ⟨hs, flat⟩ := Lower.flat_of_operands run
    exact .inl (by rwa [flat.appended.home] at h)
  | expr run =>
    obtain ⟨hs, flat⟩ := Lower.flat_of_operand run
    exact .inl (by rwa [flat.appended.home] at h)
  | pass => exact .inl h
  | breakLoop => exact .inl h
  | continueLoop => exact .inl h
  | @declare _ target annot _ _ _ _ _ run =>
    obtain ⟨hs, flat⟩ := Lower.flat_of_operands run
    have same : Alike s (s.declareTarget target annot) := .declareTarget target annot
    exact .inl (by rwa [flat.appended.home, same.home] at h)
  | @assign m name _ x _ _ run =>
    obtain ⟨hs, flat⟩ := Lower.flat_of_operand run
    rw [← flat.appended.home]
    exact m.assign_writes name x none a h
  | @annotate m name annot _ _ x _ _ _ run =>
    obtain ⟨hs, flat⟩ := Lower.flat_of_operand run
    rw [← flat.appended.home]
    exact m.assign_writes name x _ a h
  | @augAssign m name op _ x _ _ run =>
    obtain ⟨hs, flat⟩ := Lower.flat_of_operand run
    rcases m.writeThrough_moves name a h with hm | rfl
    · exact .inl (by rwa [flat.appended.home] at hm)
    · exact .inr (Head.writesMemory_augHead a op x)

private theorem Opens.writes {s t : State} {st : Stmt} {own : Head} {slots : List Slot}
    {bodies : List (List Stmt)} {close : State → State} (opens : Opens s st own slots bodies t close)
    (a : String) (h : t.home a = .memory) : s.home a = .memory ∨ own.writesMemory a = true := by
  cases opens with
  | branch run =>
    obtain ⟨hs, flat⟩ := Lower.flat_of_operand run
    exact .inl (by rwa [flat.appended.home] at h)
  | whileDo region =>
    obtain ⟨hs, flat⟩ := Lower.flat_of_operand region.1
    exact .inl (by rwa [(flat.yields region.2).2.2 a] at h)
  | @forIn v _ name _ _ _ _ _ region =>
    obtain ⟨hs, flat⟩ := Lower.flat_of_operand region.1
    rcases v.writeThrough_moves name a h with hm | rfl
    · exact .inl (by rwa [(flat.yields region.2).2.2 a] at hm)
    · exact .inr (Head.writesMemory_forHead a)
  | classDef => exact .inl h

private theorem Opening.serves {s m : State} {pre : List Act} {hs : List Head} {slots : List Slot}
    {regions : List Region} {args : List ValueId} (h : Opening s pre hs slots regions args m) :
    Serves s hs s ∧ Serves m (Walk.owned.regions () regions) m := by
  have hmemory := h.extension.memory
  cases h with
  | inline flat => exact ⟨flat.serves.still flat.appended.home, .refl m⟩
  | @loop _ hs x _ _ _ _ flat leave _ =>
    have hyield : Serves m [yieldHead x] m := by
      refine .of_no_loads ?_ fun a hm => .inl hm
      simp [yieldHead, Head.isLoad]
    have hline : Serves m hs m := ⟨flat.serves.loads.mono hmemory, fun a hm => .inl hm⟩
    rw [yieldRegion, Walk.owned_single, Walk.owned_leaves, Walk.regions_nil, List.append_nil]
    exact ⟨.refl s, hline.trans hyield⟩

/-- Below these operators every scope writes its memory before it reads it. -/
def ScopesServed (ops : List Operator) : Prop :=
  ∀ o ∈ ops, ownsScope o = true → WrittenFirst (fun _ => False) o.ownHeads

theorem ScopesServed.append {ops others : List Operator} (h : ScopesServed ops)
    (k : ScopesServed others) : ScopesServed (ops ++ others) := by
  intro o ho
  rcases List.mem_append.mp ho with ho | ho
  · exact h o ho
  · exact k o ho

private theorem ScopesServed.leaves {hs : List Head} (h : ∀ x ∈ hs, x.dialect = .py) :
    ScopesServed (hs.map leaf) := by
  intro o ho hscope
  obtain ⟨x, hx, rfl⟩ := List.mem_map.mp ho
  simp [ownsScope, leaf, head, h x hx] at hscope

theorem ScopesServed.cons {own : Head} {regions : List Region} {ops : List Operator}
    (h : own.dialect = .py) (k : ScopesServed ops) : ScopesServed (.mk own regions :: ops) := by
  intro o ho hscope
  rcases List.mem_cons.mp ho with rfl | ho
  · simp [ownsScope, head, h] at hscope
  · exact k o ho hscope

private theorem Opening.scopes_served {s m : State} {pre : List Act} {hs : List Head} {slots : List Slot}
    {regions : List Region} {args : List ValueId} (h : Opening s pre hs slots regions args m) :
    ScopesServed (Walk.operators.regions () regions) := by
  cases h with
  | inline flat => simp [ScopesServed]
  | @loop _ hs x _ _ _ _ flat _ _ =>
    rw [yieldRegion, Walk.operators_single, Walk.operators_leaves, Walk.regions_nil, List.append_nil]
    refine .leaves ?_
    intro y hy
    rcases List.mem_append.mp hy with hy | hy
    · exact flat.dialect y hy
    · rw [List.mem_singleton.mp hy]
      rfl

mutual

/-- The operators that statements grow serve the pass over them, and so do those of the functions in
them. -/
theorem Grows.serves : ∀ {Z : List String} {s s' : State} {stmts : List Stmt} {ops : List Operator},
    Grows Z s stmts s' ops → s.Placed →
    Serves s (Walk.owned.items () ops) s' ∧ ScopesServed (Walk.operators.items () ops)
  | _, s, _, _, _, .nil, _ => ⟨.refl s, by simp [ScopesServed]⟩
  | _, s, s', _, _, @Grows.simple _ _ t _ st own stmts hs ops one gains rest, placed => by
    obtain ⟨s₀, reads, hs', args, m, writes, ls, rfl, same, flat, settles, -, -⟩ :=
      one.gained placed gains
    obtain ⟨hrest, hscopes⟩ := rest.serves (placed.extension (one.extension.emitted (.ofHead own)))
    have hline : Serves s hs' s :=
      (flat.serves.still flat.appended.home).congr (fun a => (same.home a).symm) fun a => (same.home a).symm
    have hown : Serves s [own] t := .operator settles.not_load one.writes
    have hdialect : ∀ x ∈ hs' ++ ls.map Late.head ++ [own], x.dialect = .py := by
      intro x hx
      rcases List.mem_append.mp hx with hx | hx
      · exact (List.mem_append.mp hx).elim (flat.dialect x) (Late.dialect ls x)
      · rw [List.mem_singleton.mp hx]
        exact settles.dialect
    have hcons : (hs' ++ ls.map Late.head).map leaf ++ leaf own :: ops =
        (hs' ++ ls.map Late.head ++ [own]).map leaf ++ ops := by simp
    rw [hcons, Walk.items_append, Walk.owned_leaves, Walk.items_append, Walk.operators_leaves]
    exact ⟨((hline.trans (.lates s ls)).trans hown).trans (hrest.congr (fun _ => rfl) fun _ => rfl),
      (ScopesServed.leaves hdialect).append hscopes⟩
  | _, s, s', _, _, @Grows.compound _ _ t m u _ st own slots more bodies close pre hs regions others
      stmts ls ops opens opened inner retro rest, placed => by
    have hopen := opened.opening.extension
    have hnext := opened.emitted inner.lowers.extension (.ofHead own (slots ++ more))
    obtain ⟨hrest, hscopes⟩ := rest.serves (placed.extension hnext)
    obtain ⟨hinner, hscopes'⟩ := inner.serves ((placed.extension hopen).sameVars opened.start)
    obtain ⟨hline, hregion⟩ := opened.opening.serves
    have hdialect : ∀ x ∈ hs ++ ls.map Late.head, x.dialect = .py := fun x hx =>
      (List.mem_append.mp hx).elim (opened.opening.no_functions.1 x) (Late.dialect ls x)
    have hown : Serves s [own] m := by
      refine .operator (fun a => (Head.counts_of_notMem a opened.quiet.name).2.1) ?_
      intro a hm
      rw [← opened.start.home] at hm
      exact opens.writes a hm
    have hothers : Serves m (Walk.owned.regions () others) (close u) :=
      hinner.congr (fun a => (opened.start.home a).symm) (opened.finish u).home
    have hheads : Walk.owned.items () ((hs ++ ls.map Late.head).map leaf ++
        .mk own (regions ++ others) :: ops) = hs ++ ls.map Late.head ++ [own] ++
          Walk.owned.regions () regions ++ Walk.owned.regions () others ++ Walk.owned.items () ops := by
      rw [Walk.items_append, Walk.owned_leaves, Walk.owned_cons, if_neg (by
        simp [opened.quiet.dialect]), Walk.regions_append]
      simp
    rw [hheads, Walk.items_append, Walk.operators_leaves, Walk.operators_cons, walk_mk,
      Walk.regions_append, List.cons_append]
    refine ⟨?_, (ScopesServed.leaves hdialect).append (.cons opened.quiet.dialect
      ((opened.opening.scopes_served.append hscopes').append hscopes))⟩
    exact ((((hline.trans (.lates s ls)).trans hown).trans hregion).trans hothers).trans
      (hrest.congr (fun _ => rfl) fun _ => rfl)
  | _, s, s', _, _, @Grows.function _ _ t u v _ name params body stmts decorators returns span formals
      inside ops accepted bind inner leave rest, placed => by
    have binds := Lower.binds_of_bindParams bind
    have left := State.left_of_leave? leave
    have houter := binds.home_popFunction inner.lowers.extension.toFrame left
    have hnext := binds.emitted inner.lowers.extension left
      (.ofHead (functionHead name decorators formals (annotatedTy? returns))
        [⟨s.blocks.length, some ⟨entryLabel, formals⟩⟩])
    obtain ⟨hrest, hscopes⟩ := rest.serves (placed.extension hnext)
    obtain ⟨hinner, hscopes'⟩ := inner.serves (binds.placed placed)
    obtain ⟨hdialect, hname⟩ := functionHead_opcode name decorators formals (annotatedTy? returns)
    have hown : Serves s [functionHead name decorators formals (annotatedTy? returns)] s :=
      .operator (fun a => by simp [Head.isLoad, hdialect]) fun a hm => .inl hm
    have hinside : WrittenFirst (fun _ => False) (Walk.owned.items () inside) :=
      hinner.loads.mono binds.not_memory
    rw [Walk.owned_cons, if_pos hdialect, Walk.operators_cons, walk_mk, Walk.operators_single,
      Walk.regions_nil, List.append_nil]
    refine ⟨hown.trans (hrest.congr (fun a => (houter a).symm) fun _ => rfl), ?_⟩
    intro o ho hscope
    rcases List.mem_append.mp ho with ho | ho
    · rcases List.mem_cons.mp ho with rfl | ho
      · simpa [ownHeads, regions, Walk.regions_nil] using hinside
      · exact hscopes' o ho hscope
    · exact hscopes o ho hscope

theorem GrowsBodies.serves : ∀ {Z : List String} {s s' : State} {bodies : List (List Stmt)}
    {slots : List Slot} {regions : List Region}, GrowsBodies Z s bodies slots s' regions → s.Placed →
    Serves s (Walk.owned.regions () regions) s' ∧ ScopesServed (Walk.operators.regions () regions)
  | _, s, _, _, _, _, .nil, _ => ⟨.refl s, by simp [ScopesServed]⟩
  | _, s, s', _, _, _, @GrowsBodies.cons _ _ t u _ stmts bodies slots ops ls regions inner leave late
      rest, placed => by
    have left := State.left_of_leave? leave
    have hregion := inner.lowers.extension.region left
    obtain ⟨hinner, hscopes⟩ := inner.serves placed.enter
    obtain ⟨hrest, hscopes'⟩ := rest.serves (placed.extension (hregion.weaken _))
    have hblock : Serves s (Walk.owned.items () ops) u := hinner.congr (fun _ => rfl) left.home
    rw [Walk.owned_single, Walk.items_append, Walk.owned_leaves, Walk.operators_single,
      Walk.items_append, Walk.operators_leaves]
    exact ⟨(hblock.trans (.lates u ls)).trans hrest,
      (hscopes.append (.leaves (Late.dialect ls))).append hscopes'⟩

end

/-- In every scope of an accepted module, the module itself and each function, a load of a variable comes
after an operator of the same scope that writes the variable. The scopes share out all operators of
the tree. -/
theorem loads_preceded_by_writes {stmts : List Stmt} {op : Operator}
    (accepted : (SourceUnit.module stmts).lower = .ok op) :
    (op.walk.map head).Perm (op.head :: op.scopes.flatMap ownHeads) ∧
      ∀ scope ∈ op.scopes, ∀ (a : String) (before : List Head) (h : Head) (after : List Head),
        scope.ownHeads = before ++ h :: after → h.isLoad a = true →
          ∃ w ∈ before, w.writesMemory a = true := by
  obtain ⟨t, ops, grows, rfl⟩ := SourceUnit.grows_of_lower accepted
  obtain ⟨hserves, hscopes⟩ := grows.serves State.initial_placed
  refine ⟨walk_perm _, ?_⟩
  have hinitial : WrittenFirst (fun _ => False) (Walk.owned.items () ops) :=
    hserves.loads.mono fun a hm => Home.noConfusion hm
  have hown : WrittenFirst (fun _ => False)
      (ownHeads (.mk (Head.builtin "module") [.single none ops])) := by
    simpa [ownHeads, regions, Walk.regions_nil] using hinitial
  have hall : ∀ scope ∈ scopes (.mk (Head.builtin "module") [.single none ops]),
      WrittenFirst (fun _ => False) scope.ownHeads := by
    intro scope hscope
    rw [scopes_of_builtin rfl, Walk.operators_single, Walk.regions_nil, List.append_nil] at hscope
    rcases List.mem_cons.mp hscope with rfl | hscope
    · exact hown
    · obtain ⟨hmem, howns⟩ := List.mem_filter.mp hscope
      exact hscopes scope hmem howns
  intro scope hscope a before h after hsplit hload
  exact (hall scope hscope a before h after hsplit hload).resolve_left id

/-- A function that sums up in a loop what a branch before it may have set, under a module that updates
its own variable of the same name. -/
def lateTotalProgram : List Stmt :=
  [.function "sum" [⟨"xs", none⟩] none
    [.ifElse (.ofName "xs") [.assign "n" (.ofInt 0)] [],
      .forIn "x" (.ofName "xs")
        [.assign "n" (.binOp (.ofName "n") .add (.ofName "x")),
          .ifElse (.ofName "n") [.augAssign "x" .sub (.ofName "n")] []],
      .ret (some (.ofName "n"))],
    .augAssign "n" .add (.ofInt 1), .expr (.ofName "n")]

/-- The module loads its variable once. The function loads its own three times, always after a store. -/
theorem lateTotalProgram_written : ∃ op, (SourceUnit.module lateTotalProgram).lower = .ok op ∧
    op.scopes.map (fun o => (o.ownHeads.countP (Head.isLoad "n"), o.ownHeads.countP (Head.isLoad "x"))) =
      [(1, 0), (3, 1)] ∧
    ∀ scope ∈ op.scopes, ∀ a before h after, scope.ownHeads = before ++ h :: after →
      h.isLoad a = true → ∃ w ∈ before, w.writesMemory a = true := by
  obtain ⟨op, accepted, hview⟩ := SourceUnit.exists_of_view
    (show (SourceUnit.module lateTotalProgram).lower.toOption.map (fun op => op.scopes.map fun o =>
      (o.ownHeads.countP (Head.isLoad "n"), o.ownHeads.countP (Head.isLoad "x"))) =
        some [(1, 0), (3, 1)] by decide +kernel)
  exact ⟨op, accepted, hview, (loads_preceded_by_writes accepted).2⟩

end RegionIR
