import RegionIR.Proofs.Numbering
/-!
# Definition and use

An operator sees the parameters of the blocks around it and the results of the operators that stand
before it in these blocks. Lowering keeps the only value of a variable in the block that assigns it,
so a program can take a value out of sight. Whether it does is read off its accesses: `View` follows,
for each variable of a scope, where its value stands.
-/
namespace RegionIR

/-- The ids among `made` that operators take out of sight. Carried along are the ids in sight: the
parameters of the blocks around, and the results of the operators before. -/
def Walk.unseen (made : List ValueId) : Walk (List ValueId) ValueId where
  atOperator seen op := op.head.args.filter fun v => v ∈ made ∧ v ∉ seen
  within seen b := seen ++ b.label.toList.flatMap (·.params.map Prod.fst)
  past seen op := seen ++ op.head.results

namespace Operator

/-- Every id that the operators take is in sight, if it is one of `made`. The ids in sight so far are
`seen`. -/
def inSight (made seen : List ValueId) (op : Operator) : Bool :=
  ((Walk.unseen made).operator seen op).isEmpty

def inSightRegions (made seen : List ValueId) (rs : List Region) : Bool :=
  ((Walk.unseen made).regions seen rs).isEmpty

def inSightAll (made seen : List ValueId) (ops : List Operator) : Bool :=
  ((Walk.unseen made).items seen ops).isEmpty

@[simp] theorem inSightRegions_nil (made seen : List ValueId) : inSightRegions made seen [] = true := rfl

@[simp] theorem inSightAll_nil (made seen : List ValueId) : inSightAll made seen [] = true := rfl

private theorem inSightAll_cons (made seen : List ValueId) (op : Operator) (rest : List Operator) :
    inSightAll made seen (op :: rest) =
      (inSight made seen op && inSightAll made (seen ++ op.head.results) rest) := isEmpty_append ..

private theorem inSightAll_append (made seen : List ValueId) (ops others : List Operator) :
    inSightAll made seen (ops ++ others) = (inSightAll made seen ops &&
      inSightAll made (seen ++ ops.flatMap (·.head.results)) others) := by
  have hpast : ops.foldl (Walk.unseen made).past seen = seen ++ ops.flatMap (·.head.results) := by
    induction ops generalizing seen with
    | nil => simp
    | cons op ops ih => rw [List.foldl_cons, ih, List.flatMap_cons, ← List.append_assoc]; rfl
  rw [inSightAll, Walk.items_append_past, isEmpty_append, hpast]
  rfl

private theorem inSightRegions_append (made seen : List ValueId) (rs others : List Region) :
    inSightRegions made seen (rs ++ others) =
      (inSightRegions made seen rs && inSightRegions made seen others) := by
  rw [inSightRegions, Walk.regions_append, isEmpty_append]
  rfl

@[simp] theorem inSightRegions_single (made seen : List ValueId) (label : Option Label)
    (ops : List Operator) (rs : List Region) : inSightRegions made seen (.single label ops :: rs) =
      (inSightAll made (seen ++ label.toList.flatMap (·.params.map Prod.fst)) ops &&
        inSightRegions made seen rs) := by
  have hlabel : label.toList.flatMap ((Walk.unseen made).atLabel seen) = [] := by cases label <;> rfl
  rw [inSightRegions, Walk.regions_single, hlabel, isEmpty_append]
  rfl

private theorem inSight_iff (made seen : List ValueId) (head : Head) (regions : List Region) :
    inSight made seen (.mk head regions) = true ↔
      (∀ v ∈ head.args, v ∈ made → v ∈ seen) ∧ inSightRegions made seen regions = true := by
  have hsplit : inSight made seen (.mk head regions) =
      ((head.args.filter fun v => v ∈ made ∧ v ∉ seen).isEmpty && inSightRegions made seen regions) :=
    isEmpty_append ..
  rw [hsplit, Bool.and_eq_true, List.isEmpty_iff, List.filter_eq_nil_iff]
  simp

private theorem inSightAll_leaves (made seen : List ValueId) (hs : List Head) :
    inSightAll made seen (hs.map leaf) = true ↔ ∀ before h after, hs = before ++ h :: after →
      ∀ v ∈ h.args, v ∈ made → v ∈ seen ++ before.flatMap Head.results := by
  induction hs generalizing seen with
  | nil => simp
  | cons h hs ih =>
    rw [List.map_cons, inSightAll_cons, Bool.and_eq_true, ih, show (leaf h).head = h from rfl, leaf,
      inSight_iff]
    constructor
    · rintro ⟨⟨hargs, -⟩, hrest⟩ before k after heq v hv hmade
      obtain _ | ⟨b, before⟩ := before
      · cases heq
        simpa using hargs v hv hmade
      · cases heq
        simpa using hrest before k after rfl v hv hmade
    · intro hall
      refine ⟨⟨fun v hv hmade => by simpa using hall [] h hs rfl v hv hmade, rfl⟩, ?_⟩
      intro before k after heq v hv hmade
      simpa using hall (h :: before) k after (by rw [heq, List.cons_append]) v hv hmade

private theorem results_leaves (hs : List Head) :
    (hs.map leaf).flatMap (·.head.results) = hs.flatMap Head.results := by
  rw [List.flatMap_map]
  rfl

private theorem results_step (hs : List Head) (ls : List Late) (own : Head) (regions : List Region)
    (ops : List Operator) :
    ((hs ++ ls.map Late.head).map leaf ++ .mk own regions :: ops).flatMap (·.head.results) =
      hs.flatMap Head.results ++ own.results ++ ops.flatMap (·.head.results) := by
  have hlates : (ls.map Late.head).flatMap Head.results = [] := by
    rw [← Walk.ids_leaves, Walk.ids_lates]
  rw [List.flatMap_append, results_leaves, List.flatMap_append, hlates, List.append_nil,
    List.flatMap_cons, List.append_assoc]
  rfl

private theorem inSightAll_lates {made seen : List ValueId} {ls : List Late}
    (h : ∀ l ∈ ls, l.2.1 ∈ seen) :
    inSightAll made seen ((ls.map Late.head).map leaf) = true := by
  rw [inSightAll_leaves]
  intro before k after heq v hv _
  have hk : k ∈ ls.map Late.head := by rw [heq]; simp
  obtain ⟨l, hl, rfl⟩ := List.mem_map.mp hk
  have hv : v = l.2.1 := by simpa [Late.head, storeHead] using hv
  rw [hv]
  exact List.mem_append_left _ (h l hl)

private theorem inSightAll_step {made seen : List ValueId} {hs : List Head} {ls : List Late} {own : Head}
    {regions : List Region} {ops : List Operator} (h : ∀ l ∈ ls, l.2.1 ∈ seen) :
    inSightAll made seen ((hs ++ ls.map Late.head).map leaf ++ .mk own regions :: ops) =
      (inSightAll made seen (hs.map leaf) &&
        inSight made (seen ++ hs.flatMap Head.results) (.mk own regions) &&
        inSightAll made (seen ++ (hs.flatMap Head.results ++ own.results)) ops) := by
  have hlates : inSightAll made (seen ++ hs.flatMap Head.results) ((ls.map Late.head).map leaf) = true :=
    inSightAll_lates fun l hl => List.mem_append_left _ (h l hl)
  have hnone : ((ls.map Late.head).map leaf).flatMap (·.head.results) = [] := by
    rw [results_leaves, ← Walk.ids_leaves, Walk.ids_lates]
  rw [List.map_append, List.append_assoc, inSightAll_append, inSightAll_append, results_leaves, hlates,
    Bool.true_and, hnone, List.append_nil, inSightAll_cons, List.append_assoc, Bool.and_assoc]
  rfl

end Operator

/-- Where the value of a variable stands. -/
inductive Standing where
  | unbound
  /-- In the current block or in one around it. -/
  | near
  /-- In a block that has been left. -/
  | far
  | memory
  deriving DecidableEq

/-- The variables of a scope as seen at a point of a program, with the names whose plain id has been
handed out so far and those whose plain id is in sight. -/
structure View where
  standing : String → Standing
  taken : List String
  shown : List String

namespace View

def empty : View := ⟨fun _ => .unbound, [], []⟩

def setStanding (v : View) (name : String) (st : Standing) : View :=
  { v with standing := fun x => if x = name then st else v.standing x }

/-- The variable gets a value here, with the plain id if nobody has it. -/
def define (v : View) (name : String) : View :=
  if name ∈ v.taken then v.setStanding name .near
  else { v.setStanding name .near with taken := name :: v.taken, shown := name :: v.shown }

private theorem define_standing (v : View) (name x : String) :
    (v.define name).standing x = if x = name then .near else v.standing x := by
  unfold define
  split <;> rfl

def bind (v : View) (name : String) : View :=
  if v.standing name = .unbound then v.define name else v.setStanding name .memory

/-- After a block: what it has defined is out of sight. -/
def leave (v inner : View) : View where
  standing x := if v.standing x = .unbound ∧ inner.standing x = .near then .far else inner.standing x
  taken := inner.taken
  shown := v.shown

def call (v : View) (params : List String) : View :=
  params.foldl define { v with standing := fun _ => .unbound }

def exit (v inner : View) : View := { v with taken := inner.taken }

/-- A read finds its value in sight. The names whose plain id is produced somewhere are `handed`: a read
of such a name in a scope that has not bound it takes that id. -/
def sees (handed : List String) (v : View) (name : String) : Bool :=
  match v.standing name with
  | .unbound => decide (name ∈ handed → name ∈ v.shown)
  | .near => true
  | .far => false
  | .memory => true

end View

namespace Act

mutual

/-- The view after an act. -/
def view (v : View) : Act → View
  | read _ => v
  | bind name => v.bind name
  | touch name => v.setStanding name .memory
  | nest acts => v.leave (viewAll v acts)
  | function params acts => v.exit (viewAll (v.call params) acts)
termination_by structural a => a

def viewAll (v : View) : List Act → View
  | [] => v
  | a :: rest => viewAll (view v a) rest
termination_by structural as => as

end

mutual

/-- Every read of an act finds its value in sight. -/
def sighted (handed : List String) (v : View) : Act → Bool
  | read name => v.sees handed name
  | bind _ => true
  | touch _ => true
  | nest acts => sightedAll handed v acts
  | function params acts => sightedAll handed (v.call params) acts
termination_by structural a => a

def sightedAll (handed : List String) (v : View) : List Act → Bool
  | [] => true
  | a :: rest => sighted handed v a && sightedAll handed (view v a) rest
termination_by structural as => as

end

private theorem viewAll_append (v : View) (as bs : List Act) :
    viewAll v (as ++ bs) = viewAll (viewAll v as) bs := by
  induction as generalizing v with
  | nil => rfl
  | cons a as ih => rw [List.cons_append, viewAll, viewAll, ih]

private theorem sightedAll_append (handed : List String) (v : View) (as bs : List Act) :
    sightedAll handed v (as ++ bs) =
      (sightedAll handed v as && sightedAll handed (viewAll v as) bs) := by
  induction as generalizing v with
  | nil => simp [sightedAll, viewAll]
  | cons a as ih => rw [List.cons_append, sightedAll, sightedAll, viewAll, ih, Bool.and_assoc]

private theorem viewAll_reads (v : View) (names : List String) : viewAll v (names.map read) = v := by
  induction names with
  | nil => rfl
  | cons x names ih => rw [List.map_cons, viewAll, view, ih]

private theorem sightedAll_reads (handed : List String) (v : View) (names : List String) :
    sightedAll handed v (names.map read) = true ↔ ∀ x ∈ names, v.sees handed x = true := by
  induction names with
  | nil => simp [sightedAll]
  | cons x names ih =>
    rw [List.map_cons, sightedAll, Bool.and_eq_true, view, ih, sighted, List.forall_mem_cons]

end Act

/-- Every read of a program finds its value in sight. -/
def Stmt.sighted (stmts : List Stmt) : Bool :=
  Act.sightedAll (Act.viewAll .empty (Stmt.actsAll false stmts)).taken .empty
    (Stmt.actsAll false stmts)

open Operator

/-- A home agrees with the standing of its variable, for the ids produced so far and those in sight. -/
def Stands (done seen : List ValueId) : Home → Standing → Prop
  | .undefined, st => st = .unbound
  | .memory, st => st = .memory
  | .pending _ v, st => v ∈ done ∧ (v ∈ seen ∧ st = .near ∨ v ∉ seen ∧ st = .far)

theorem Stands.append {done seen ids : List ValueId} {h : Home} {st : Standing}
    (stands : Stands done seen h st) (hnodup : (done ++ ids).Nodup) :
    Stands (done ++ ids) (seen ++ ids) h st := by
  cases h with
  | undefined => exact stands
  | memory => exact stands
  | pending b v =>
    have hfresh := List.disjoint_of_nodup_append hnodup stands.1
    refine ⟨List.mem_append_left _ stands.1, stands.2.imp ?_ ?_⟩
    · rintro ⟨hv, hst⟩
      exact ⟨List.mem_append_left _ hv, hst⟩
    · rintro ⟨hv, hst⟩
      exact ⟨by simpa [hv] using hfresh, hst⟩

theorem Stands.mono {done seen : List ValueId} {h : Home} {st : Standing}
    (stands : Stands done seen h st) (ids : List ValueId) : Stands (done ++ ids) seen h st := by
  cases h with
  | undefined => exact stands
  | memory => exact stands
  | pending b v => exact ⟨List.mem_append_left _ stands.1, stands.2⟩

/-- The view agrees with the state of lowering. -/
structure Sees (s : State) (view : View) (done seen : List ValueId) : Prop where
  home : ∀ x, Stands done seen (s.home x) (view.standing x)
  here : ∀ x v, s.home x = .pending s.current v → v ∈ seen
  taken : ∀ x, .named x ∈ s.taken ↔ x ∈ view.taken
  shown : ∀ x, PlainName x → (.named x ∈ seen ↔ x ∈ view.shown)
  produced : ∀ v ∈ seen, v ∈ done

/-- Both sides of the comparison over a part of a program: the ids it produces, those that stay in
sight after it, and whether its operators see what they take. -/
structure Tracks (made : List ValueId) (handed : List String) (s : State) (acts : List Act) (t : State)
    (ids shown : List ValueId) (check : List ValueId → Bool) : Prop where
  sub : ∀ v ∈ shown, v ∈ ids
  born : ∀ x b v, t.home x = .pending b v → s.home x = .pending b v ∨ v ∈ ids
  sees : ∀ {view done seen}, Sees s view done seen → (done ++ ids).Nodup →
    Sees t (Act.viewAll view acts) (done ++ ids) (seen ++ shown)
  sight : ∀ {view done seen}, Sees s view done seen → (done ++ ids).Nodup →
    (∀ v ∈ done ++ ids, v ∈ made) → (check seen = true ↔ Act.sightedAll handed view acts = true)

namespace Tracks

variable {made : List ValueId} {handed : List String} {s t u : State} {acts more : List Act}
  {ids ids' shown shown' : List ValueId} {check check' : List ValueId → Bool}

theorem nil : Tracks made handed s [] s [] [] fun _ => true where
  sub := by simp
  born _ _ _ h := .inl h
  sees h _ := by simpa [Act.viewAll] using h
  sight _ _ _ := by simp [Act.sightedAll]

theorem trans (h : Tracks made handed s acts t ids shown check)
    (h' : Tracks made handed t more u ids' shown' check') :
    Tracks made handed s (acts ++ more) u (ids ++ ids') (shown ++ shown')
      fun seen => check seen && check' (seen ++ shown) where
  sub v hv := by
    rcases List.mem_append.mp hv with hv | hv
    · exact List.mem_append_left _ (h.sub v hv)
    · exact List.mem_append_right _ (h'.sub v hv)
  born x b v hp := by
    rcases h'.born x b v hp with hp | hv
    · exact (h.born x b v hp).imp_right (List.mem_append_left _)
    · exact .inr (List.mem_append_right _ hv)
  sees hs hnodup := by
    rw [← List.append_assoc] at hnodup ⊢
    rw [← List.append_assoc, Act.viewAll_append]
    exact h'.sees (h.sees hs (List.nodup_append.mp hnodup).1) hnodup
  sight hs hnodup hmade := by
    rw [← List.append_assoc] at hnodup hmade
    have hleft := (List.nodup_append.mp hnodup).1
    rw [Bool.and_eq_true, Act.sightedAll_append, Bool.and_eq_true,
      h.sight hs hleft fun v hv => hmade v (List.mem_append_left _ hv),
      h'.sight (h.sees hs hleft) hnodup hmade]

private theorem check_congr (h : Tracks made handed s acts t ids shown check)
    (hcheck : ∀ {view done seen}, Sees s view done seen → (done ++ ids).Nodup →
      (check' seen = true ↔ check seen = true)) :
    Tracks made handed s acts t ids shown check' :=
  ⟨h.sub, h.born, h.sees, fun hs hnodup hmade =>
    (hcheck hs hnodup).trans (h.sight hs hnodup hmade)⟩

end Tracks

private def State.Reads (s : State) (names : List String) (v : ValueId) : Prop :=
  ∃ x ∈ names, s.home x ≠ .memory ∧ (s.home x).valueOf x = v

private theorem State.Reads.append_left {s : State} {names : List String} {v : ValueId}
    (h : s.Reads names v) (more : List String) : s.Reads (names ++ more) v := by
  obtain ⟨x, hx, hv⟩ := h
  exact ⟨x, List.mem_append_left _ hx, hv⟩

private theorem eq_of_concat_eq {α : Type} {xs before after : List α} {y z : α}
    (h : xs ++ [y] = before ++ z :: after) :
    (before = xs ∧ z = y) ∨ ∃ rest, xs = before ++ z :: rest := by
  rcases List.eq_nil_or_concat after with rfl | ⟨rest, w, rfl⟩
  · obtain ⟨rfl, hy⟩ := List.append_inj' h rfl
    cases hy
    exact .inl ⟨rfl, rfl⟩
  · rw [List.concat_eq_append, ← List.cons_append, ← List.append_assoc] at h
    exact .inr ⟨rest, (List.append_inj' h rfl).1⟩

namespace Flat

variable {s t : State} {reads : List String} {hs : List Head} {pool : List ValueId}

private theorem results_counted (flat : Flat s reads hs pool t) :
    ∀ v ∈ hs.flatMap Head.results, v.counter?.isSome := by
  have hplain := flat.draws.plain
  rw [flat.appended.taken] at hplain
  have hnone := List.self_eq_append_left.mp hplain
  rw [List.reverse_eq_nil_iff, List.filter_eq_nil_iff] at hnone
  intro v hv
  simpa [Option.isSome_iff_ne_none] using hnone v hv

private theorem sources (flat : Flat s reads hs pool t) :
    (∀ v ∈ pool, s.Reads reads v ∨ v ∈ hs.flatMap Head.results) ∧
      ∀ before h after, hs = before ++ h :: after →
        ∀ v ∈ h.args, s.Reads reads v ∨ v ∈ before.flatMap Head.results := by
  induction flat with
  | start => simp
  | @load reads hs pool t name flat home ih =>
    refine ⟨?_, ?_⟩
    · intro v hv
      rcases List.mem_cons.mp hv with rfl | hv
      · exact .inr (by simp [loadHead])
      · exact (ih.1 v hv).imp (·.append_left _) fun h => by
          rw [List.flatMap_append]
          exact List.mem_append_left _ h
    · intro before h after heq v hv
      rcases eq_of_concat_eq heq with ⟨rfl, rfl⟩ | ⟨rest, hrest⟩
      · simp [loadHead] at hv
      · exact (ih.2 before h rest hrest v hv).imp_left (·.append_left _)
  | @value reads hs pool t name flat home ih =>
    have hhome := flat.appended.home name
    refine ⟨?_, ?_⟩
    · intro v hv
      rcases List.mem_cons.mp hv with rfl | hv
      · exact .inl ⟨name, by simp, by rwa [← hhome], by rw [hhome]⟩
      · exact (ih.1 v hv).imp_left (·.append_left _)
    · intro before h after heq v hv
      exact (ih.2 before h after heq v hv).imp_left (·.append_left _)
  | @op reads hs pool t h ty flat computes known ih =>
    refine ⟨?_, ?_⟩
    · intro v hv
      rcases List.mem_cons.mp hv with rfl | hv
      · exact .inr (by simp)
      · exact (ih.1 v hv).imp_right fun h => by
          rw [List.flatMap_append]
          exact List.mem_append_left _ h
    · intro before k after heq v hv
      rcases eq_of_concat_eq heq with ⟨rfl, rfl⟩ | ⟨rest, hrest⟩
      · exact ih.1 v (known v (by simpa using hv))
      · exact ih.2 before k rest hrest v hv
  | drop flat known used ih => exact ⟨fun v hv => ih.1 v (known v hv), ih.2⟩

private theorem uses (flat : Flat s reads hs pool t) {v : ValueId} (h : s.Reads reads v) :
    v ∈ pool ∨ ∃ k ∈ hs, v ∈ k.args := by
  induction flat with
  | start =>
    obtain ⟨x, hx, -⟩ := h
    simp at hx
  | @load reads hs pool t name flat home ih =>
    obtain ⟨x, hx, hne, hv⟩ := h
    rcases List.mem_append.mp hx with hx | hx
    · rcases ih ⟨x, hx, hne, hv⟩ with h | ⟨k, hk, h⟩
      · exact .inl (List.mem_cons_of_mem _ h)
      · exact .inr ⟨k, List.mem_append_left _ hk, h⟩
    · rw [List.mem_singleton.mp hx, ← flat.appended.home] at hne
      exact absurd home hne
  | @value reads hs pool t name flat home ih =>
    obtain ⟨x, hx, hne, hv⟩ := h
    rcases List.mem_append.mp hx with hx | hx
    · exact (ih ⟨x, hx, hne, hv⟩).imp_left (List.mem_cons_of_mem _)
    · rw [List.mem_singleton.mp hx, ← flat.appended.home] at hv
      exact .inl (by simp [hv])
  | op flat computes known ih =>
    rcases ih h with h | ⟨k, hk, h⟩
    · exact .inl (List.mem_cons_of_mem _ h)
    · exact .inr ⟨k, List.mem_append_left _ hk, h⟩
  | drop flat known used ih =>
    rcases ih h with h | h
    · exact used v h
    · exact .inr h

end Flat

namespace Sees

variable {made : List ValueId} {handed : List String} {s t : State} {view : View}
  {done seen ids shown : List ValueId}

theorem congr (h : Sees s view done seen) (home : ∀ x, t.home x = s.home x)
    (current : t.current = s.current) (taken : t.taken = s.taken) : Sees t view done seen where
  home x := by
    rw [home x]
    exact h.home x
  here x v hp := by
    rw [home x, current] at hp
    exact h.here x v hp
  taken x := by
    rw [taken]
    exact h.taken x
  shown := h.shown
  produced := h.produced

/-- A read sees its value exactly if the view says so. -/
theorem sees_iff (h : Sees s view done seen) (hdone : ∀ v ∈ done, v ∈ made) {x : String}
    (hx : PlainName x) (hhanded : .named x ∈ made ↔ x ∈ handed) : view.sees handed x = true ↔
      (s.home x ≠ .memory → (s.home x).valueOf x ∈ made → (s.home x).valueOf x ∈ seen) := by
  have hhome := h.home x
  cases hcase : s.home x with
  | undefined =>
    rw [hcase] at hhome
    have hst : view.standing x = .unbound := hhome
    simp only [View.sees, hst, Home.valueOf, hhanded, h.shown x hx, decide_eq_true_eq, ne_eq,
      reduceCtorEq, not_false_eq_true, true_imp_iff]
  | memory =>
    rw [hcase] at hhome
    have hst : view.standing x = .memory := hhome
    simp [View.sees, hst]
  | pending b v =>
    rw [hcase] at hhome
    obtain ⟨hv, ⟨hseen, hst⟩ | ⟨hseen, hst⟩⟩ := hhome
    · simp [View.sees, hst, Home.valueOf, hseen]
    · simp [View.sees, hst, Home.valueOf, hseen, hdone v hv]

private theorem valueOf_notMem (h : Sees s view done seen) {x : String} (hx : PlainName x)
    (hnodup : (done ++ ids).Nodup) (hids : ∀ v ∈ ids, v.counter?.isSome) (hne : s.home x ≠ .memory) :
    (s.home x).valueOf x ∉ ids := by
  intro hmem
  cases hcase : s.home x with
  | undefined =>
    rw [hcase] at hmem
    have hsome := hids _ hmem
    simp [Home.valueOf, ValueId.counter?_named hx] at hsome
  | memory => exact hne hcase
  | pending b v =>
    have hhome := h.home x
    rw [hcase] at hhome hmem
    exact List.disjoint_of_nodup_append hnodup hhome.1 hmem

private theorem counted (h : Sees s view done seen) (hnodup : (done ++ ids).Nodup)
    (hids : ∀ v ∈ ids, v.counter?.isSome) (home : ∀ x, t.home x = s.home x)
    (current : t.current = s.current) (taken : t.taken = s.taken) :
    Sees t view (done ++ ids) (seen ++ ids) where
  home x := by
    rw [home x]
    exact (h.home x).append hnodup
  here x v hp := by
    rw [home x, current] at hp
    exact List.mem_append_left _ (h.here x v hp)
  taken x := by
    rw [taken]
    exact h.taken x
  shown x hx := by
    rw [List.mem_append, or_iff_left, h.shown x hx]
    intro hmem
    have hsome := hids _ hmem
    rw [ValueId.counter?_named hx] at hsome
    exact Bool.noConfusion hsome
  produced v hv := by
    rcases List.mem_append.mp hv with hv | hv
    · exact List.mem_append_left _ (h.produced v hv)
    · exact List.mem_append_right _ hv

private theorem define {name : String} {value : ValueId} (h : Sees s view done seen)
    (fresh : Fresh s name value t) (hnodup : (done ++ [value]).Nodup)
    (home : ∀ x, t.home x = if x = name then .pending t.current value else s.home x)
    (current : t.current = s.current) :
    Sees t (view.define name) (done ++ [value]) (seen ++ [value]) where
  home x := by
    rw [home x, View.define_standing]
    by_cases hx : x = name
    · rw [if_pos hx, if_pos hx]
      exact ⟨by simp, .inl ⟨by simp, rfl⟩⟩
    · rw [if_neg hx, if_neg hx]
      exact (h.home x).append hnodup
  here x v hp := by
    rw [home x] at hp
    split at hp
    · cases hp
      simp
    · rw [current] at hp
      exact List.mem_append_left _ (h.here x v hp)
  taken x := by
    cases fresh with
    | plain free taken _ =>
      rw [h.taken] at free
      rw [taken, View.define, if_neg free, List.mem_cons, List.mem_cons, h.taken,
        ValueId.named_injective.eq_iff]
    | version used taken _ =>
      rw [h.taken] at used
      rw [taken, View.define, if_pos used, h.taken]
      rfl
  shown x hx := by
    cases fresh with
    | plain free _ _ =>
      rw [h.taken] at free
      rw [View.define, if_neg free, List.mem_append, List.mem_singleton, List.mem_cons, h.shown x hx,
        ValueId.named_injective.eq_iff, or_comm]
    | version used _ _ =>
      rw [h.taken] at used
      rw [View.define, if_pos used, List.mem_append, List.mem_singleton,
        or_iff_left (ValueId.named_ne_versioned hx _ _), h.shown x hx]
      rfl
  produced v hv := by
    rcases List.mem_append.mp hv with hv | hv
    · exact List.mem_append_left _ (h.produced v hv)
    · exact List.mem_append_right _ hv

private theorem binds {entry : Nat} {names : List String} {values : List ValueId}
    (h : Sees s view done seen) (binds : Binds entry s names values t) (hentry : s.current = entry)
    (hnodup : (done ++ values).Nodup) :
    Sees t (names.foldl View.define view) (done ++ values) (seen ++ values) := by
  induction binds generalizing view done seen with
  | nil => simpa using h
  | @cons s t u name value names values frame _ fresh home _ ih =>
    rw [List.append_cons] at hnodup ⊢
    rw [List.append_cons seen]
    refine ih (h.define fresh (List.nodup_append.mp hnodup).1 ?_ frame.current) ?_ hnodup
    · intro x
      rw [home x, frame.current, hentry]
    · rw [frame.current, hentry]

private theorem move {name : String} (h : Sees s view done seen) (write : Write s name none t) :
    Sees t (view.setStanding name .memory) done seen := by
  obtain ⟨home, taken, -⟩ := write.moves
  refine ⟨?_, ?_, ?_, h.shown, h.produced⟩
  · intro x
    by_cases hx : x = name
    · rw [home x, if_pos hx]
      simp [View.setStanding, hx, Stands]
    · simpa [home x, hx, View.setStanding] using h.home x
  · intro x v hp
    rw [home x, write.frame.current] at hp
    split at hp
    · exact Home.noConfusion hp
    · exact h.here x v hp
  · intro x
    rw [taken]
    exact h.taken x

private theorem settles {args : List ValueId} {writes : List Act} {own : Head}
    (h : Sees s view done seen)
    (settles : Settles s args writes own t) (hnodup : (done ++ own.results).Nodup) :
    Sees t (Act.viewAll view writes) (done ++ own.results) (seen ++ own.results) := by
  cases settles with
  | plain quiet _ => simpa [quiet.results, Act.viewAll] using h
  | @define _ name value _ _ _ results _ write =>
    rw [results] at hnodup ⊢
    cases write with
    | define frame before _ fresh home =>
      have hst : view.standing name = .unbound := by
        have hhome := h.home name
        rwa [before] at hhome
      rw [Act.viewAll, Act.viewAll, Act.view, View.bind, if_pos hst]
      exact h.define fresh hnodup (by rwa [frame.current]) frame.current
  | @store name x ty _ _ known write =>
    have hst : view.standing name ≠ .unbound := by
      have hhome := h.home name
      intro hst
      rw [hst] at hhome
      cases hcase : s.home name with
      | undefined => exact known hcase
      | memory => simp [hcase, Stands] at hhome
      | pending b v => simp [hcase, Stands] at hhome
    rw [Act.viewAll, Act.viewAll, Act.view, View.bind, if_neg hst]
    simpa [storeHead] using h.move write
  | @through _ name _ quiet _ write =>
    simpa [quiet.results, Act.viewAll, Act.view] using h.move write

end Sees

/-- A straight line and what it leaves over see their values exactly if its reads do. -/
theorem Flat.sight {made : List ValueId} {handed : List String} {s t : State} {reads : List String}
    {hs : List Head} {pool : List ValueId} {view : View} {done seen : List ValueId}
    (flat : Flat s reads hs pool t) (h : Sees s view done seen)
    (hnodup : (done ++ hs.flatMap Head.results).Nodup) (hdone : ∀ v ∈ done, v ∈ made)
    (plain : ∀ x ∈ reads, PlainName x) (hhanded : ∀ x, PlainName x → (.named x ∈ made ↔ x ∈ handed)) :
    (inSightAll made seen (hs.map .leaf) = true ∧
        ∀ v ∈ pool, v ∈ made → v ∈ seen ++ hs.flatMap Head.results) ↔
      Act.sightedAll handed view (reads.map .read) = true := by
  have hreads : Act.sightedAll handed view (reads.map .read) = true ↔
      ∀ v, s.Reads reads v → v ∈ made → v ∈ seen := by
    rw [Act.sightedAll_reads]
    constructor
    · rintro hall v ⟨x, hx, hne, rfl⟩
      exact (h.sees_iff hdone (plain x hx) (hhanded x (plain x hx))).mp (hall x hx) hne
    · intro hall x hx
      exact (h.sees_iff hdone (plain x hx) (hhanded x (plain x hx))).mpr fun hne =>
        hall _ ⟨x, hx, hne, rfl⟩
  obtain ⟨hpool, hline⟩ := flat.sources
  rw [hreads, inSightAll_leaves]
  constructor
  · rintro ⟨hall, hrest⟩ v hv hmade
    have hnew : v ∉ hs.flatMap Head.results := by
      obtain ⟨x, hx, hne, rfl⟩ := hv
      exact h.valueOf_notMem (plain x hx) hnodup flat.results_counted hne
    rcases flat.uses hv with hv | ⟨k, hk, hv⟩
    · simpa [hnew] using hrest v hv hmade
    · obtain ⟨before, after, heq⟩ := List.append_of_mem hk
      rcases List.mem_append.mp (hall before k after heq v hv hmade) with hin | hin
      · exact hin
      · rw [heq, List.flatMap_append] at hnew
        exact absurd (List.mem_append_left _ hin) hnew
  · intro hall
    refine ⟨?_, ?_⟩
    · intro before k after heq v hv hmade
      rcases hline before k after heq v hv with hr | hr
      · exact List.mem_append_left _ (hall v hr hmade)
      · exact List.mem_append_right _ hr
    · intro v hv hmade
      rcases hpool v hv with hr | hr
      · exact List.mem_append_left _ (hall v hr hmade)
      · exact List.mem_append_right _ hr

namespace Tracks

variable {made : List ValueId} {handed : List String} {s t u : State} {acts : List Act}
  {ids shown : List ValueId} {check : List ValueId → Bool}

private theorem start (h : Tracks made handed t acts u ids shown check) (home : ∀ x, t.home x = s.home x)
    (current : t.current = s.current) (taken : t.taken = s.taken) :
    Tracks made handed s acts u ids shown check where
  sub := h.sub
  born x b v hp := by
    rw [← home x]
    exact h.born x b v hp
  sees hs := h.sees (hs.congr home current taken)
  sight hs := h.sight (hs.congr home current taken)

private theorem finish (h : Tracks made handed s acts t ids shown check)
    (home : ∀ x, u.home x = t.home x)
    (current : u.current = t.current) (taken : u.taken = t.taken) :
    Tracks made handed s acts u ids shown check where
  sub := h.sub
  born x b v hp := by
    rw [home x] at hp
    exact h.born x b v hp
  sees hs hnodup := (h.sees hs hnodup).congr home current taken
  sight := h.sight

private theorem flat {reads : List String} {hs : List Head} {own : Head}
    (flat : Flat s reads hs own.args.reverse t) (plain : ∀ x ∈ reads, PlainName x)
    (hhanded : ∀ x, PlainName x → (.named x ∈ made ↔ x ∈ handed)) :
    Tracks made handed s (reads.map .read) t (hs.flatMap Head.results) (hs.flatMap Head.results)
      fun seen => inSightAll made seen (hs.map .leaf) &&
        inSight made (seen ++ hs.flatMap Head.results) (.leaf own) where
  sub _ hv := hv
  born x b v hp := .inl (by rwa [← flat.appended.home])
  sees h hnodup := by
    rw [Act.viewAll_reads]
    exact h.counted hnodup flat.results_counted flat.appended.home flat.appended.current
      flat.appended.taken
  sight h hnodup hmade := by
    rw [← flat.sight h hnodup (fun v hv => hmade v (List.mem_append_left _ hv)) plain hhanded,
      Bool.and_eq_true, Operator.leaf, inSight_iff]
    simp

private theorem settles {args : List ValueId} {writes : List Act} {own : Head}
    (settles : Settles s args writes own t) :
    Tracks made handed s writes t own.results own.results fun _ => true where
  sub _ hv := hv
  born x b v hp := by
    cases settles with
    | plain => exact .inl hp
    | @define _ name _ _ _ _ results _ write =>
      cases write with
      | define _ _ _ _ home =>
        rw [home x] at hp
        split at hp
        · cases hp
          exact .inr (by simp [results])
        · exact .inl hp
    | store _ _ write => exact .inl (write.pending_before hp)
    | through _ _ write => exact .inl (write.pending_before hp)
  sees h hnodup := h.settles settles hnodup
  sight _ _ _ := by
    cases settles <;> simp [Act.sightedAll, Act.sighted]

private theorem touch {name : String} (write : Write s name none t) :
    Tracks made handed s [.touch name] t [] [] fun _ => true where
  sub := by simp
  born x b v hp := .inl (write.pending_before hp)
  sees h _ := by simpa [Act.viewAll, Act.view] using h.move write
  sight _ _ _ := by simp [Act.sightedAll, Act.sighted]

private theorem region (h : Tracks made handed s.enter acts t ids shown check) (placed : s.Placed)
    (ext : Extends (some s.enter.current) s.enter t) (left : Left t s.blocks.length u) :
    Tracks made handed s [.nest acts] u ids [] check := by
  have hcurrent : u.current = s.current := (ext.region left).current
  have enter : ∀ {view done seen}, Sees s view done seen → Sees s.enter view done seen := by
    intro view done seen hs
    refine ⟨hs.home, ?_, hs.taken, hs.shown, hs.produced⟩
    intro x v hp
    exact absurd (placed.pending x _ v hp) (lt_irrefl _)
  refine ⟨by simp, ?_, ?_, ?_⟩
  · intro x b v hp
    rw [left.home] at hp
    exact h.born x b v hp
  · intro view done seen hs hnodup
    have ht := h.sees (enter hs) hnodup
    have hborn : ∀ x b v, t.home x = .pending b v → v ∈ done → s.home x = .pending b v := by
      intro x b v hp hv
      rcases h.born x b v hp with hp | hids
      · exact hp
      · exact absurd hids (List.disjoint_of_nodup_append hnodup hv)
    rw [List.append_nil]
    refine ⟨?_, ?_, ?_, hs.shown, ?_⟩
    · intro x
      have hst := ht.home x
      have hold := hs.home x
      rw [left.home]
      change Stands _ _ _ (if view.standing x = .unbound ∧ (Act.viewAll view acts).standing x = .near
        then .far else (Act.viewAll view acts).standing x)
      cases hcase : t.home x with
      | undefined =>
        rw [hcase] at hst
        have hst : (Act.viewAll view acts).standing x = .unbound := hst
        rw [if_neg (by simp [hst])]
        exact hst
      | memory =>
        rw [hcase] at hst
        have hst : (Act.viewAll view acts).standing x = .memory := hst
        rw [if_neg (by simp [hst])]
        exact hst
      | pending b v =>
        rw [hcase] at hst
        obtain ⟨hv, hwhere⟩ := hst
        refine ⟨hv, ?_⟩
        -- what is in sight outside is from before, and what is near only inside is from the block
        by_cases hseen : v ∈ seen
        · refine .inl ⟨hseen, ?_⟩
          rw [hborn x b v hcase (hs.produced v hseen)] at hold
          have hbefore : view.standing x = .near := by simpa [Stands, hseen] using hold.2
          rw [if_neg (by simp [hbefore])]
          simpa [hseen] using hwhere
        · refine .inr ⟨hseen, ?_⟩
          obtain ⟨hin, hnear⟩ | ⟨-, hfar⟩ := hwhere
          · have hids : v ∈ ids := h.sub v (by simpa [hseen] using hin)
            have hunbound : view.standing x = .unbound := by
              have hbefore : s.home x = .undefined ∨ s.home x = .pending b v :=
                ext.undefined_or_pending hcase
              rcases hbefore with hbefore | hbefore <;> rw [hbefore] at hold
              · exact hold
              · exact absurd hids (List.disjoint_of_nodup_append hnodup hold.1)
            rw [if_pos ⟨hunbound, hnear⟩]
          · rwa [if_neg (by simp [hfar])]
    · intro x v hp
      rw [left.home, hcurrent] at hp
      have hlt := placed.current_lt
      have hlen : s.enter.blocks.length = s.blocks.length + 1 := Blocks.length_extend _
      rcases ext.origin x _ v hp with hp | hp | hp
      · exact hs.here x v hp
      · have heq : s.current = s.blocks.length := Option.some.inj hp
        omega
      · omega
    · intro x
      rw [left.taken]
      exact ht.taken x
    · intro v hv
      exact List.mem_append_left _ (hs.produced v hv)
  · intro view done seen hs hnodup hmade
    rw [Act.sightedAll, Act.sightedAll, Act.sighted, Bool.and_true]
    exact h.sight (enter hs) hnodup hmade

private theorem function {u v : State} {name : String} {ty : Ty} {names : List String}
    {values : List ValueId}
    (binds : Binds s.blocks.length (s.declare name ty).pushFunction.enter names values t)
    (h : Tracks made handed t acts u ids shown check) (ext : Extends (some t.current) t u)
    (left : Left u s.blocks.length v) :
    Tracks made handed s [.function names acts] v.popFunction (values ++ ids) []
      fun seen => check (seen ++ values) := by
  have hhome := binds.home_popFunction ext.toFrame left
  have hcurrent : v.popFunction.current = s.current := (Extends.function binds ext left).current
  have call : ∀ {view done seen}, Sees s view done seen → (done ++ values).Nodup →
      Sees t (view.call names) (done ++ values) (seen ++ values) := by
    intro view done seen hs hnodup
    have hentry : Sees (s.declare name ty).pushFunction.enter { view with standing := fun _ => .unbound }
        done seen := ⟨fun _ => rfl, fun _ _ hp => Home.noConfusion hp, hs.taken, hs.shown, hs.produced⟩
    exact hentry.binds binds rfl hnodup
  refine ⟨by simp, ?_, ?_, ?_⟩
  · intro x b w hp
    rw [hhome x] at hp
    exact .inl hp
  · intro view done seen hs hnodup
    rw [← List.append_assoc] at hnodup ⊢
    have hu := h.sees (call hs (List.nodup_append.mp hnodup).1) hnodup
    rw [List.append_nil]
    refine ⟨?_, ?_, ?_, hs.shown, ?_⟩
    · intro x
      rw [hhome x, List.append_assoc]
      exact (hs.home x).mono _
    · intro x w hp
      rw [hhome x, hcurrent] at hp
      exact hs.here x w hp
    · intro x
      have htaken : v.popFunction.taken = u.taken := left.taken
      rw [htaken]
      exact hu.taken x
    · intro w hw
      rw [List.append_assoc]
      exact List.mem_append_left _ (hs.produced w hw)
  · intro view done seen hs hnodup hmade
    rw [← List.append_assoc] at hnodup hmade
    rw [Act.sightedAll, Act.sightedAll, Act.sighted, Bool.and_true]
    exact h.sight (call hs (List.nodup_append.mp hnodup).1) hnodup hmade

end Tracks

private theorem Opening.tracks {made : List ValueId} {handed : List String} {s m : State}
    {pre : List Act}
    {hs : List Head} {slots : List Slot} {regions : List Region} {args : List ValueId} {own : Head}
    (h : Opening s pre hs slots regions args m) (hargs : own.args = args) (placed : s.Placed)
    (plain : ∀ x ∈ Act.namesAll pre, PlainName x)
    (hhanded : ∀ x, PlainName x → (.named x ∈ made ↔ x ∈ handed)) :
    Tracks made handed s pre m (hs.flatMap Head.results ++ Walk.ids.regions () regions)
      (hs.flatMap Head.results) fun seen => inSightAll made seen (hs.map .leaf) &&
        inSight made (seen ++ hs.flatMap Head.results) (.mk own regions) := by
  cases h with
  | inline flat =>
    rw [Act.namesAll_reads] at plain
    rw [Walk.regions_nil, List.append_nil]
    rw [← hargs] at flat
    exact .flat flat plain hhanded
  | @loop reads hs x u v _ writes flat leave written =>
    have hreads : ∀ y ∈ reads, PlainName y := by
      intro y hy
      refine plain y ?_
      rw [Act.namesAll, Act.names, Act.namesAll_reads]
      exact List.mem_append_left _ hy
    have left := State.left_of_leave? leave
    have line : Tracks made handed s.enter (reads.map .read) (u.emit (.ofHead (yieldHead x))) _ _ _ :=
      (Tracks.flat (show Flat s.enter reads hs (yieldHead x).args.reverse u from flat) hreads
        hhanded).finish (fun _ => rfl) rfl rfl
    have ext : Extends (some s.enter.current) s.enter (u.emit (.ofHead (yieldHead x))) :=
      flat.appended.extension.emitted _
    have hwrites : Tracks made handed v writes m [] [] fun _ => true := by
      obtain ⟨rfl, rfl⟩ | ⟨name, rfl, write⟩ := written
      · exact .nil
      · exact .touch write
    have hall := (line.region placed ext left).trans hwrites
    rw [List.append_nil, List.append_nil, List.singleton_append] at hall
    rw [List.flatMap_nil, List.nil_append, Walk.ids_yield]
    refine hall.check_congr ?_
    intro view done seen _ _
    rw [List.map_nil, inSightAll_nil, Bool.true_and, List.append_nil, inSight_iff, hargs, yieldRegion,
      inSightRegions_single, Option.toList_none, List.flatMap_nil, List.append_nil, List.map_append,
      inSightAll_append, results_leaves]
    simp [inSightAll_cons]

mutual

/-- The operators of a pass see what they take exactly if the reads of the source do. -/
theorem Grows.tracks {made : List ValueId} {handed : List String}
    (hhanded : ∀ x, PlainName x → (.named x ∈ made ↔ x ∈ handed)) :
    ∀ {Z : List String} {s s' : State} {stmts : List Stmt} {ops : List Operator},
    Grows Z s stmts s' ops → s.Placed →
    (∀ x ∈ Act.namesAll (Stmt.actsAll s.inFunction stmts), PlainName x) →
    Tracks made handed s (Stmt.actsAll s.inFunction stmts) s' (Walk.ids.items () ops)
      (ops.flatMap (·.head.results)) fun seen => inSightAll made seen ops
  | _, _, _, _, _, .nil, _, _ => .nil
  | _, s, s', _, _, @Grows.simple _ _ t _ st own stmts hs ops one gains rest, placed, plain => by
    obtain ⟨s₀, reads, hs', args, m, writes, ls, rfl, same, flat, settles, acts, retro⟩ :=
      one.gained placed gains
    have hnext := one.extension.emitted (.ofHead own)
    rw [Stmt.actsAll, acts, Act.namesAll_append, Act.namesAll_append, Act.namesAll_reads] at plain
    have hrest := rest.tracks hhanded (placed.extension hnext) (by
      intro x hx
      rw [State.inFunction_congr s hnext.sites] at hx
      exact plain x (List.mem_append_right _ hx))
    rw [State.inFunction_congr s hnext.sites] at hrest
    rw [← settles.args] at flat
    have hline := Tracks.flat flat (fun x hx =>
      plain x (List.mem_append_left _ (List.mem_append_left _ hx))) hhanded
    have hstep := ((hline.start same.home same.current same.taken).trans (.settles settles)).trans
      (hrest.start (fun _ => rfl) rfl rfl)
    rw [Stmt.actsAll, acts, show Operator.leaf own = .mk own [] from rfl, Walk.ids_step,
      results_step, Walk.regions_nil, List.append_nil]
    refine hstep.check_congr ?_
    intro view done seen hs _
    rw [inSightAll_step fun l hl => hs.here l.1 l.2.1 ((retro.mem _ _).mp ⟨l.2.2, hl⟩).1, Bool.and_true]
    rfl
  | _, s, s', _, _, @Grows.compound _ _ t m u _ st own slots more bodies close pre hs regions others
      stmts ls ops opens opened inner retro rest, placed, plain => by
    have hopen := opened.opening.extension
    have hnext := opened.emitted inner.lowers.extension (.ofHead own (slots ++ more))
    rw [Stmt.actsAll, opened.acts hopen.sites, Act.namesAll_append, Act.namesAll_append] at plain
    have hrest := rest.tracks hhanded (placed.extension hnext) (by
      intro x hx
      rw [State.inFunction_congr s hnext.sites] at hx
      exact plain x (List.mem_append_right _ hx))
    rw [State.inFunction_congr s hnext.sites] at hrest
    have hinner := inner.tracks hhanded ((placed.extension hopen).sameVars opened.start) fun x hx =>
      plain x (List.mem_append_left _ (List.mem_append_right _ hx))
    have hpre := opened.opening.tracks rfl placed (fun x hx =>
      plain x (List.mem_append_left _ (List.mem_append_left _ hx))) hhanded
    have same := opened.finish u
    have hstep := (hpre.trans ((hinner.start opened.start.home opened.start.current
      opened.start.taken).finish same.home same.current same.taken)).trans
        (hrest.start (fun _ => rfl) rfl rfl)
    rw [Stmt.actsAll, opened.acts hopen.sites, Walk.ids_step, results_step, opened.quiet.results,
      Walk.regions_append, List.nil_append, ← List.append_assoc (hs.flatMap Head.results)]
    refine hstep.check_congr ?_
    intro view done seen hs' _
    rw [inSightAll_step fun l hl => hs'.here l.1 l.2.1 ((retro.mem _ _).mp ⟨l.2.2, hl⟩).1,
      opened.quiet.results]
    simp only [Bool.and_eq_true, inSight_iff, inSightRegions_append]
    tauto
  | _, s, s', _, _, @Grows.function _ _ t u v _ name params body stmts decorators returns span formals
      inside ops accepted bind inner leave rest, placed, plain => by
    have binds := Lower.binds_of_bindParams bind
    have left := State.left_of_leave? leave
    have hnext := binds.emitted inner.lowers.extension left
      (.ofHead (functionHead name decorators formals (annotatedTy? returns))
        [⟨s.blocks.length, some ⟨entryLabel, formals⟩⟩])
    have hin := binds.inFunction
    rw [Stmt.actsAll, Stmt.acts, Act.namesAll_append, Act.namesAll, Act.names, Act.namesAll,
      List.append_nil] at plain
    have hrest := rest.tracks hhanded (placed.extension hnext) (by
      intro x hx
      rw [State.inFunction_congr s hnext.sites] at hx
      exact plain x (List.mem_append_right _ hx))
    rw [State.inFunction_congr s hnext.sites] at hrest
    have hinner := inner.tracks hhanded (binds.placed placed) (by
      intro x hx
      rw [hin] at hx
      exact plain x (List.mem_append_left _ (List.mem_append_right _ hx)))
    rw [hin] at hinner
    have hstep := (Tracks.function binds hinner inner.lowers.extension left).trans
      (hrest.start (fun _ => rfl) rfl rfl)
    have hproduced : Walk.ids.items () (.mk (functionHead name decorators formals (annotatedTy? returns))
        [.single (some ⟨entryLabel, formals⟩) inside] :: ops) =
        formals.map Prod.fst ++ Walk.ids.items () inside ++ Walk.ids.items () ops := by
      rw [Walk.ids_cons, functionHead_results]
      simp
    rw [Stmt.actsAll, Stmt.acts, hproduced, List.flatMap_cons, Operator.head, functionHead_results]
    refine hstep.check_congr ?_
    intro view done seen _ _
    rw [inSightAll_cons, Bool.and_eq_true, Bool.and_eq_true, inSight_iff, inSightRegions_single,
      Operator.head, functionHead_results, functionHead_args]
    simp

theorem GrowsBodies.tracks {made : List ValueId} {handed : List String}
    (hhanded : ∀ x, PlainName x → (.named x ∈ made ↔ x ∈ handed)) :
    ∀ {Z : List String} {s s' : State} {bodies : List (List Stmt)} {slots : List Slot}
    {regions : List Region}, GrowsBodies Z s bodies slots s' regions → s.Placed →
    (∀ x ∈ Act.namesAll (bodies.map fun body => .nest (Stmt.actsAll s.inFunction body)), PlainName x) →
    Tracks made handed s (bodies.map fun body => .nest (Stmt.actsAll s.inFunction body)) s'
      (Walk.ids.regions () regions) [] fun seen => inSightRegions made seen regions
  | _, _, _, _, _, _, .nil, _, _ => .nil
  | _, s, s', _, _, _, @GrowsBodies.cons _ _ t u _ stmts bodies slots ops ls regions inner leave late
      rest, placed, plain => by
    have left := State.left_of_leave? leave
    have hregion := inner.lowers.extension.region left
    rw [List.map_cons, Act.namesAll, Act.names] at plain
    have hinner := inner.tracks hhanded placed.enter fun x hx => plain x (List.mem_append_left _ hx)
    have hrest := rest.tracks hhanded (placed.extension (hregion.weaken _)) (by
      intro x hx
      rw [State.inFunction_congr s hregion.sites] at hx
      exact plain x (List.mem_append_right _ hx))
    rw [State.inFunction_congr s hregion.sites] at hrest
    -- the stores at the end of the region are for values that it holds
    have hlates : Tracks made handed t [] t [] [] fun seen =>
        inSightAll made seen ((ls.map Late.head).map .leaf) := by
      refine Tracks.nil.check_congr ?_
      intro view done seen hs _
      rw [inSightAll_lates]
      intro l hl
      have hp := ((late.mem l.1 l.2.1).mp ⟨l.2.2, hl⟩).1
      exact hs.here l.1 l.2.1 (by rwa [inner.lowers.extension.current])
    rw [show s.enter.inFunction = s.inFunction from rfl] at hinner
    have hall := ((hinner.trans hlates).region placed inner.lowers.extension left).trans hrest
    rw [List.map_cons, Walk.ids_single, Walk.items_append, Walk.ids_lates]
    refine Tracks.check_congr (by simpa using hall) ?_
    intro view done seen _ _
    simp [inSightAll_append]

end

/-- Every use in a program stands behind its definition, in the same block or in one around it,
exactly if every read of the source finds its value in sight. -/
theorem definition_precedes_use_iff {stmts : List Stmt} {op : Operator}
    (accepted : (SourceUnit.module stmts).lower = .ok op)
    (plain : ∀ x ∈ Act.namesAll (Stmt.actsAll false stmts), PlainName x) :
    op.inSight op.produced [] = true ↔ Stmt.sighted stmts = true := by
  obtain ⟨t, ops, grows, rfl⟩ := SourceUnit.grows_of_lower accepted
  have hdraws := grows.draws State.initial_placed plain
  have hnodup : ([] ++ Walk.ids.items () ops).Nodup := hdraws.nodup List.nodup_nil
  have hstart : Sees State.initial .empty [] [] :=
    ⟨fun _ => rfl, fun _ _ hp => Home.noConfusion hp, fun _ => by simp [State.initial, View.empty,
      State.enter, State.record], fun _ _ => by simp [View.empty], by simp⟩
  have hin : State.initial.inFunction = false := rfl
  -- what has been handed out does not depend on what is looked for
  have hend := (grows.tracks (by simp) State.initial_placed plain : Tracks [] [] ..).sees hstart hnodup
  rw [hin] at hend
  have hhanded : ∀ x, PlainName x → (.named x ∈ Walk.ids.items () ops ↔
      x ∈ (Act.viewAll .empty (Stmt.actsAll false stmts)).taken) := by
    intro x hx
    rw [← hend.taken x, hdraws.plain]
    simp [ValueId.counter?_named hx, State.initial, State.enter, State.record]
  have htracks := grows.tracks hhanded State.initial_placed plain
  rw [hin] at htracks
  rw [produced_module, inSight_iff, inSightRegions_single]
  have hsight := htracks.sight hstart hnodup (by simp)
  rw [Stmt.sighted, ← hsight]
  simp

/-- A function with two assignments to a variable, one of them in a branch. -/
def reassignedInBranchProgram : List Stmt :=
  [.function "f" [⟨"c", none⟩] none
    [.assign "a" (.ofInt 0), .ifElse (.ofName "c") [.assign "a" (.ofInt 1)] [],
      .ret (some (.ofName "a"))]]

theorem reassignedInBranchProgram_in_sight :
    ∃ op, (SourceUnit.module reassignedInBranchProgram).lower = .ok op ∧
      op.produced.map ValueId.text = ["%c", "%0", "%a", "%1", "%a.2"] ∧
      op.inSight op.produced [] = true := by
  obtain ⟨op, accepted, hids⟩ := SourceUnit.exists_of_view
    (show (SourceUnit.module reassignedInBranchProgram).lower.toOption.map
      (fun op => op.produced.map ValueId.text) = some ["%c", "%0", "%a", "%1", "%a.2"] by
        decide +kernel)
  have hnames : Act.namesAll (Stmt.actsAll false reassignedInBranchProgram) =
      ["c", "a", "c", "a", "a"] := rfl
  refine ⟨op, accepted, hids, (definition_precedes_use_iff accepted ?_).mpr (by decide)⟩
  rw [hnames]
  simp [PlainName]

/-- A function whose only assignment to the variable that it returns is in a branch. -/
def assignedInBranchProgram : List Stmt :=
  [.function "f" [⟨"c", none⟩] none
    [.ifElse (.ofName "c") [.assign "a" (.ofInt 1)] [], .ret (some (.ofName "a"))]]

theorem assignedInBranchProgram_out_of_sight :
    ∃ op, (SourceUnit.module assignedInBranchProgram).lower = .ok op ∧
      (∀ x ∈ Act.namesAll (Stmt.actsAll false assignedInBranchProgram), PlainName x) ∧
      op.inSight op.produced [] = false := by
  obtain ⟨op, accepted, hsight⟩ := SourceUnit.exists_of_view
    (show (SourceUnit.module assignedInBranchProgram).lower.toOption.map
      (fun op => op.inSight op.produced []) = some false by decide +kernel)
  have hnames : Act.namesAll (Stmt.actsAll false assignedInBranchProgram) = ["c", "c", "a", "a"] :=
    rfl
  refine ⟨op, accepted, ?_, hsight⟩
  rw [hnames]
  simp [PlainName]

end RegionIR
