import RegionIR.Proofs.Growth
import RegionIR.Proofs.Names
import RegionIR.Tree.Build
/-!
# Fresh ids

Every id that a program produces is new, and the numbers in ids go up by one from the first to the
last in the order in which the tree is printed.
-/
namespace RegionIR

namespace Walk

def ids : Walk Unit ValueId where
  atOperator _ op := op.head.results
  atLabel _ l := l.params.map Prod.fst

theorem ids_cons (head : Head) (regions : List Region) (rest : List Operator) :
    ids.items () (.mk head regions :: rest) =
      head.results ++ ids.regions () regions ++ ids.items () rest := rfl

@[simp] theorem ids_single (label : Option Label) (ops : List Operator) (rs : List Region) :
    ids.regions () (.single label ops :: rs) =
      label.toList.flatMap (·.params.map Prod.fst) ++ ids.items () ops ++ ids.regions () rs := by
  simp [regions_single, ids]

theorem ids_leaves (hs : List Head) : ids.items () (hs.map .leaf) = hs.flatMap Head.results :=
  ids.items_leaves hs

theorem ids_lates (ls : List Late) : ids.items () ((ls.map Late.head).map .leaf) = [] := by
  rw [ids_leaves]
  induction ls with
  | nil => rfl
  | cons l ls ih => simpa [Late.head, storeHead] using ih

theorem ids_step (hs : List Head) (ls : List Late) (own : Head) (regions : List Region)
    (ops : List Operator) :
    ids.items () ((hs ++ ls.map Late.head).map .leaf ++ .mk own regions :: ops) =
      hs.flatMap Head.results ++ (own.results ++ ids.regions () regions) ++ ids.items () ops := by
  rw [List.map_append, items_append, items_append, ids_lates, ids_leaves, List.append_nil, ids_cons]
  simp only [List.append_assoc]

theorem ids_yield (hs : List Head) (x : Operand) :
    ids.regions () [yieldRegion hs x] = hs.flatMap Head.results := by
  rw [yieldRegion, ids_single, ids_leaves]
  simp [yieldHead]

end Walk

namespace Operator

/-- The ids that an operator and the operators below it produce, as results or as block parameters. -/
def produced (op : Operator) : List ValueId := Walk.ids.operator () op

theorem produced_module (ops : List Operator) :
    produced (.mk (Head.builtin "module") [.single none ops]) = Walk.ids.items () ops := by
  have hmodule : produced (.mk (Head.builtin "module") [.single none ops]) =
      [] ++ Walk.ids.regions () [.single none ops] := rfl
  simp [hmodule]

end Operator

open Operator

/-- Ids that are told apart by their numbers, or else by being different plain names, are distinct. -/
theorem nodup_of_counters {ids : List ValueId} (counted : (ids.filterMap ValueId.counter?).Nodup)
    (plain : (ids.filter (·.counter?.isNone)).Nodup) : ids.Nodup := by
  induction ids with
  | nil => exact List.nodup_nil
  | cons v ids ih =>
    cases hv : v.counter? with
    | none =>
      rw [List.filterMap_cons_none hv] at counted
      rw [List.filter_cons_of_pos (by simp [hv]), List.nodup_cons] at plain
      refine List.nodup_cons.mpr ⟨?_, ih counted plain.2⟩
      intro hmem
      exact plain.1 (List.mem_filter.mpr ⟨hmem, by simp [hv]⟩)
    | some n =>
      rw [List.filterMap_cons_some hv, List.nodup_cons] at counted
      rw [List.filter_cons_of_neg (by simp [hv])] at plain
      refine List.nodup_cons.mpr ⟨?_, ih counted.2 plain⟩
      intro hmem
      exact counted.1 (List.mem_filterMap.mpr ⟨v, hmem, hv⟩)

/-- The ids between two states: their numbers are the ones counted in between, and the others are the
plain names taken in between. -/
structure Draws (s : State) (ids : List ValueId) (t : State) : Prop where
  le : s.counter ≤ t.counter
  counted : ids.filterMap ValueId.counter? = List.range' s.counter (t.counter - s.counter)
  plain : t.taken = (ids.filter (·.counter?.isNone)).reverse ++ s.taken
  fresh : s.taken.Nodup → t.taken.Nodup

namespace Draws

variable {s t u : State} {ids more : List ValueId}

theorem of_eq (counter : t.counter = s.counter) (taken : t.taken = s.taken) : Draws s [] t := by
  refine ⟨counter.ge, by simp [counter], by simp [taken], ?_⟩
  rw [taken]
  exact id

private theorem of_sameVars (h : SameVars s t) : Draws s [] t := .of_eq h.counter h.taken

theorem trans (h : Draws s ids t) (h' : Draws t more u) : Draws s (ids ++ more) u where
  le := h.le.trans h'.le
  counted := by
    have hle := h.le
    have hle' := h'.le
    rw [List.filterMap_append, h.counted, h'.counted]
    have hsplit : u.counter - s.counter = (t.counter - s.counter) + (u.counter - t.counter) := by omega
    have hstart : t.counter = s.counter + (t.counter - s.counter) := by omega
    rw [hsplit, ← List.range'_append_1, ← hstart]
  plain := by rw [h'.plain, h.plain, List.filter_append, List.reverse_append, List.append_assoc]
  fresh := fun hs => h'.fresh (h.fresh hs)

private theorem start (h : Draws t ids u) (counter : t.counter = s.counter) (taken : t.taken = s.taken) :
    Draws s ids u := by
  have htrans := (of_eq counter taken).trans h
  rwa [List.nil_append] at htrans

theorem nodup (h : Draws s ids t) (hs : s.taken.Nodup) : ids.Nodup := by
  refine nodup_of_counters ?_ ?_
  · rw [h.counted]
    exact List.nodup_range'
  · have hnodup := h.fresh hs
    rw [h.plain] at hnodup
    exact List.nodup_reverse.mp (List.nodup_append.mp hnodup).1

private theorem of_next {v : ValueId} (number : v.counter? = some s.counter)
    (counter : t.counter = s.counter + 1) (taken : t.taken = s.taken) : Draws s [v] t := by
  refine ⟨by omega, ?_, ?_, ?_⟩
  · simp [number, counter]
  · simp [number, taken]
  · rw [taken]
    exact id

private theorem of_fresh {name : String} {value : ValueId} (h : Fresh s name value t)
    (hx : PlainName name) :
    Draws s [value] t := by
  cases h with
  | plain free taken counter =>
    refine ⟨counter.ge, ?_, ?_, ?_⟩
    · simp [ValueId.counter?_named hx, counter]
    · simp [ValueId.counter?_named hx, taken]
    · intro hs
      rw [taken]
      exact List.nodup_cons.mpr ⟨free, hs⟩
  | version _ taken counter => exact .of_next (ValueId.counter?_versioned _ _) counter taken

end Draws

theorem Flat.draws {s t : State} {reads : List String} {hs : List Head} {pool : List ValueId}
    (flat : Flat s reads hs pool t) : Draws s (hs.flatMap Head.results) t := by
  induction flat with
  | start => exact .of_eq rfl rfl
  | load flat home ih =>
    rw [List.flatMap_append, State.read_memory home]
    refine ih.trans ?_
    rw [List.flatMap_singleton]
    exact .of_next (ValueId.counter?_versioned _ _) rfl rfl
  | value flat home ih => exact ih
  | op flat computes known ih =>
    rw [List.flatMap_append]
    refine ih.trans ?_
    rw [List.flatMap_singleton]
    exact .of_next (ValueId.counter?_numbered _) rfl rfl
  | drop flat known used ih => exact ih

private theorem Write.draws_none {s t : State} {name : String} (h : Write s name none t) :
    Draws s [] t := by
  cases h with
  | promote _ _ _ taken counter _ => exact .of_eq counter taken
  | mark _ _ _ taken counter _ => exact .of_eq counter taken
  | stay _ _ _ taken counter _ => exact .of_eq counter taken

private theorem Settles.draws {m t : State} {args : List ValueId} {writes : List Act} {own : Head}
    (h : Settles m args writes own t) (plain : ∀ x ∈ Act.namesAll writes, PlainName x) :
    Draws m own.results t := by
  cases h with
  | plain quiet _ =>
    rw [quiet.results]
    exact .of_eq rfl rfl
  | @define _ name value _ _ _ results _ write =>
    rw [results]
    cases write with
    | define _ _ _ fresh _ => exact .of_fresh fresh (plain name (by simp [Act.namesAll, Act.names]))
  | store _ _ write => exact write.draws_none
  | through quiet _ write =>
    rw [quiet.results]
    exact write.draws_none

private theorem Opening.draws {s m : State} {pre : List Act} {hs : List Head} {slots : List Slot}
    {regions : List Region} {args : List ValueId} (h : Opening s pre hs slots regions args m) :
    Draws s (hs.flatMap Head.results ++ Walk.ids.regions () regions) m := by
  cases h with
  | inline flat =>
    rw [Walk.regions_nil, List.append_nil]
    exact flat.draws
  | @loop _ hs x u v _ _ flat leave written =>
    have left := State.left_of_leave? leave
    have hline : Draws s (hs.flatMap Head.results) u := flat.draws.start rfl rfl
    have hleft : Draws u [] v := .of_eq left.counter left.taken
    have hwrite : Draws v [] m := by
      obtain ⟨-, rfl⟩ | ⟨name, -, write⟩ := written
      · exact .of_eq rfl rfl
      · exact write.draws_none
    rw [Walk.ids_yield]
    simpa using (hline.trans hleft).trans hwrite

private theorem Binds.draws {entry : Nat} {s t : State} {names : List String} {values : List ValueId}
    (h : Binds entry s names values t) (plain : ∀ x ∈ names, PlainName x) : Draws s values t := by
  induction h with
  | nil => exact .of_eq rfl rfl
  | @cons _ _ _ name _ _ _ _ _ fresh _ _ ih =>
    refine (Draws.of_fresh fresh (plain name (by simp))).trans (ih ?_)
    intro x hx
    exact plain x (List.mem_cons_of_mem _ hx)

mutual

/-- The ids of a pass, in the order of printing, are drawn one after the other. -/
theorem Grows.draws : ∀ {Z : List String} {s s' : State} {stmts : List Stmt} {ops : List Operator},
    Grows Z s stmts s' ops → s.Placed →
    (∀ x ∈ Act.namesAll (Stmt.actsAll s.inFunction stmts), PlainName x) →
    Draws s (Walk.ids.items () ops) s'
  | _, _, _, _, _, .nil, _, _ => .of_eq rfl rfl
  | _, s, s', _, _, @Grows.simple _ _ t _ st own stmts hs ops one gains rest, placed, plain => by
    obtain ⟨s₀, reads, hs', args, m, writes, ls, rfl, same, flat, settles, acts, -⟩ :=
      one.gained placed gains
    have hnext := one.extension.emitted (.ofHead own)
    rw [Stmt.actsAll, acts, Act.namesAll_append, Act.namesAll_append] at plain
    have hrest : Draws t (Walk.ids.items () ops) s' := by
      refine (rest.draws (placed.extension hnext) ?_).start rfl rfl
      intro x hx
      rw [State.inFunction_congr s hnext.sites] at hx
      exact plain x (List.mem_append_right _ hx)
    have hline : Draws s (hs'.flatMap Head.results) m := flat.draws.start same.counter same.taken
    have hown : Draws m own.results t := settles.draws fun x hx =>
      plain x (List.mem_append_left _ (List.mem_append_right _ hx))
    rw [show leaf own = .mk own [] from rfl, Walk.ids_step, Walk.regions_nil, List.append_nil]
    exact (hline.trans hown).trans hrest
  | _, s, s', _, _, @Grows.compound _ _ t m u _ st own slots more bodies close pre hs regions others
      stmts ls ops opens opened inner retro rest, placed, plain => by
    have hopen := opened.opening.extension
    have hnext := opened.emitted inner.lowers.extension (.ofHead own (slots ++ more))
    rw [Stmt.actsAll, opened.acts hopen.sites, Act.namesAll_append, Act.namesAll_append] at plain
    have hrest : Draws (close u) (Walk.ids.items () ops) s' := by
      refine (rest.draws (placed.extension hnext) ?_).start rfl rfl
      intro x hx
      rw [State.inFunction_congr s hnext.sites] at hx
      exact plain x (List.mem_append_right _ hx)
    have hinner : Draws t (Walk.ids.regions () others) u := by
      refine inner.draws ((placed.extension hopen).sameVars opened.start) ?_
      intro x hx
      exact plain x (List.mem_append_left _ (List.mem_append_right _ hx))
    have hstart : Draws m [] t := .of_sameVars opened.start
    have hfinish : Draws u [] (close u) := .of_sameVars (opened.finish u)
    rw [Walk.ids_step, opened.quiet.results, Walk.regions_append]
    simpa using opened.opening.draws.trans (hstart.trans (hinner.trans (hfinish.trans hrest)))
  | _, s, s', _, _, @Grows.function _ _ t u v _ name params body stmts decorators returns span formals
      inside ops accepted bind inner leave rest, placed, plain => by
    have binds := Lower.binds_of_bindParams bind
    have left := State.left_of_leave? leave
    have hnext := binds.emitted inner.lowers.extension left
      (.ofHead (functionHead name decorators formals (annotatedTy? returns))
        [⟨s.blocks.length, some ⟨entryLabel, formals⟩⟩])
    have hin := binds.inFunction
    rw [Stmt.actsAll, Stmt.acts, Act.namesAll_append, Act.namesAll, Act.names, Act.namesAll,
      List.append_nil] at plain
    have hbinds : Draws s (formals.map Prod.fst) t := by
      refine (binds.draws ?_).start rfl rfl
      intro x hx
      exact plain x (List.mem_append_left _ (List.mem_append_left _ hx))
    have hinner : Draws t (Walk.ids.items () inside) u := by
      refine inner.draws (binds.placed placed) ?_
      intro x hx
      rw [hin] at hx
      exact plain x (List.mem_append_left _ (List.mem_append_right _ hx))
    have hleft : Draws u [] v := .of_eq left.counter left.taken
    have hrest : Draws v (Walk.ids.items () ops) s' := by
      refine (rest.draws (placed.extension hnext) ?_).start rfl rfl
      intro x hx
      rw [State.inFunction_congr s hnext.sites] at hx
      exact plain x (List.mem_append_right _ hx)
    have hproduced : Walk.ids.items () (.mk (functionHead name decorators formals (annotatedTy? returns))
        [.single (some ⟨entryLabel, formals⟩) inside] :: ops) =
        formals.map Prod.fst ++ (Walk.ids.items () inside ++ ([] ++ Walk.ids.items () ops)) := by
      rw [Walk.ids_cons, functionHead_results]
      simp
    rw [hproduced]
    exact hbinds.trans (hinner.trans (hleft.trans hrest))

theorem GrowsBodies.draws : ∀ {Z : List String} {s s' : State} {bodies : List (List Stmt)}
    {slots : List Slot} {regions : List Region}, GrowsBodies Z s bodies slots s' regions → s.Placed →
    (∀ x ∈ Act.namesAll (bodies.map fun body => .nest (Stmt.actsAll s.inFunction body)), PlainName x) →
    Draws s (Walk.ids.regions () regions) s'
  | _, _, _, _, _, _, .nil, _, _ => .of_eq rfl rfl
  | _, s, s', _, _, _, @GrowsBodies.cons _ _ t u _ stmts bodies slots ops ls regions inner leave late
      rest, placed, plain => by
    have left := State.left_of_leave? leave
    have hregion := inner.lowers.extension.region left
    rw [List.map_cons, Act.namesAll, Act.names] at plain
    have hinner : Draws s (Walk.ids.items () ops) t := by
      refine (inner.draws placed.enter ?_).start rfl rfl
      intro x hx
      exact plain x (List.mem_append_left _ hx)
    have hleft : Draws t [] u := .of_eq left.counter left.taken
    have hrest : Draws u (Walk.ids.regions () regions) s' := by
      refine rest.draws (placed.extension (hregion.weaken _)) ?_
      intro x hx
      rw [State.inFunction_congr s hregion.sites] at hx
      exact plain x (List.mem_append_right _ hx)
    rw [Walk.ids_single, Walk.items_append, Walk.ids_lates, List.append_nil]
    simpa using hinner.trans (hleft.trans hrest)

end

/-- Value ids are unique in a program, and the numbers in them count up in the order of printing. -/
theorem produced_ids_numbered_in_order {stmts : List Stmt} {op : Operator}
    (accepted : (SourceUnit.module stmts).lower = .ok op)
    (plain : ∀ x ∈ Act.namesAll (Stmt.actsAll false stmts), PlainName x) :
    op.produced.Nodup ∧ ∃ K, op.produced.filterMap ValueId.counter? = List.range K := by
  obtain ⟨t, ops, grows, rfl⟩ := SourceUnit.grows_of_lower accepted
  have hdraws := grows.draws State.initial_placed plain
  have hcounted : (Walk.ids.items () ops).filterMap ValueId.counter? = List.range t.counter := by
    rw [hdraws.counted, List.range_eq_range']
    rfl
  rw [produced_module]
  exact ⟨hdraws.nodup List.nodup_nil, t.counter, hcounted⟩

/-- A module that assigns `x`, with a function whose parameter is called `x` as well. -/
def sharedNameProgram : List Stmt :=
  [.assign "x" (.ofName "y"),
    .function "f" [⟨"x", none⟩] none [.augAssign "x" .add (.ofName "x"), .ret (some (.ofName "x"))]]

theorem sharedNameProgram_ids : ∃ op, (SourceUnit.module sharedNameProgram).lower = .ok op ∧
    op.produced.map ValueId.text = ["%x", "%x.0", "%x.1"] ∧ op.produced.Nodup ∧
    ∃ K, op.produced.filterMap ValueId.counter? = List.range K := by
  obtain ⟨op, accepted, hids⟩ := SourceUnit.exists_of_view
    (show (SourceUnit.module sharedNameProgram).lower.toOption.map
      (fun op => op.produced.map ValueId.text) = some ["%x", "%x.0", "%x.1"] by decide)
  have hnames : Act.namesAll (Stmt.actsAll false sharedNameProgram) = ["y", "x", "x", "x", "x", "x"] :=
    rfl
  refine ⟨op, accepted, hids, produced_ids_numbered_in_order accepted ?_⟩
  rw [hnames]
  simp [PlainName]

end RegionIR
