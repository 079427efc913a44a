import RegionIR.Proofs.Correspondence
import RegionIR.Proofs.Evaluation
/-!
# The temporaries of expressions

The result of an operator that computes an expression is a temporary: the operator that needs it takes
it, and nobody else does. Only the operand between two comparisons of a chain is taken by both of them.
A line is followed operator by operator, with a pledge for each value that is still to be taken.
-/
namespace RegionIR

open Lower (Runs)

/-- One use of a value: the opcode of the operator that takes it, and the place among its arguments. -/
structure Usage where
  value : ValueId
  opcode : String
  place : Nat
  deriving DecidableEq

def Head.usages (h : Head) : List Usage := h.args.zipIdx.map fun p => ⟨p.1, h.opcode, p.2⟩

def usesOf (v : ValueId) (us : List Usage) : List Usage := us.filter (·.value = v)

theorem Head.mem_args_of_mem_usages {h : Head} {u : Usage} (hu : u ∈ h.usages) : u.value ∈ h.args := by
  obtain ⟨p, hp, rfl⟩ := List.mem_map.mp hu
  exact List.fst_mem_of_mem_zipIdx hp

@[simp] theorem usesOf_append (v : ValueId) (us ws : List Usage) :
    usesOf v (us ++ ws) = usesOf v us ++ usesOf v ws := List.filter_append ..

theorem usesOf_eq_nil {v : ValueId} {us : List Usage} (h : ∀ u ∈ us, u.value ≠ v) : usesOf v us = [] := by
  rw [usesOf, List.filter_eq_nil_iff]
  intro u hu
  simpa using h u hu

theorem Head.length_usesOf (h : Head) (v : ValueId) : (usesOf v h.usages).length = h.args.count v := by
  have hcount : ∀ (args : List ValueId) (n : Nat), (usesOf v ((args.zipIdx n).map fun p =>
      (⟨p.1, h.opcode, p.2⟩ : Usage))).length = args.count v := by
    intro args
    induction args with
    | nil => exact fun _ => rfl
    | cons a args ih =>
      intro n
      rw [List.zipIdx_cons, List.map_cons, List.count_cons, ← ih (n + 1)]
      by_cases ha : a = v <;> simp [usesOf, ha]
  exact hcount h.args 0

/-- Ids that have been made afresh: they are distinct, and none of them is among the values `V` from
elsewhere. -/
structure Afresh (V : ValueId → Prop) (ids : List ValueId) : Prop where
  nodup : ids.Nodup
  outside : ∀ v ∈ ids, ¬ V v

def Drawn (V : ValueId → Prop) (ids : List ValueId) (us : List Usage) : Prop :=
  ∀ u ∈ us, V u.value ∨ u.value ∈ ids

namespace Afresh

variable {V : ValueId → Prop} {ids more : List ValueId}

theorem left (h : Afresh V (ids ++ more)) : Afresh V ids :=
  ⟨(List.nodup_append.mp h.nodup).1, fun v hv => h.outside v (List.mem_append_left _ hv)⟩

theorem right (h : Afresh V (ids ++ more)) : Afresh V more :=
  ⟨(List.nodup_append.mp h.nodup).2.1, fun v hv => h.outside v (List.mem_append_right _ hv)⟩

theorem notMem_right (h : Afresh V (ids ++ more)) {v : ValueId} (hv : v ∈ ids) : v ∉ more := fun hmore =>
  (List.nodup_append.mp h.nodup).2.2 v hv v hmore rfl

theorem notMem_left (h : Afresh V (ids ++ more)) {v : ValueId} (hv : v ∈ more) : v ∉ ids := fun hids =>
  (List.nodup_append.mp h.nodup).2.2 v hids v hv rfl

end Afresh

theorem Drawn.usesOf_eq_nil {V : ValueId → Prop} {ids : List ValueId} {us : List Usage} {v : ValueId}
    (h : Drawn V ids us) (hV : ¬ V v) (hv : v ∉ ids) : usesOf v us = [] := by
  refine RegionIR.usesOf_eq_nil fun u hu heq => ?_
  rcases h u hu with h | h
  · exact hV (heq ▸ h)
  · exact hv (heq ▸ h)

theorem Drawn.append {V : ValueId → Prop} {ids more : List ValueId} {us ws : List Usage}
    (h : Drawn V ids us) (h' : Drawn V more ws) : Drawn V (ids ++ more) (us ++ ws) := by
  intro u hu
  rcases List.mem_append.mp hu with hu | hu
  · exact (h u hu).imp_right (List.mem_append_left _)
  · exact (h' u hu).imp_right (List.mem_append_right _)

/-- A temporary of a program: the opcode that makes it, and whether it is the value of an operand that
stands inside a chain of comparisons. -/
structure Temporary where
  opcode : String
  interior : Bool
  deriving DecidableEq

/-- What becomes of a temporary: it is used once, or, inside a chain of comparisons, first as the right
argument of a comparison and then as the left one of the next. -/
def Due (interior : Bool) (v : ValueId) (us : List Usage) : Prop :=
  if interior then us = [⟨v, "py.compare", 1⟩, ⟨v, "py.compare", 0⟩] else ∃ u, us = [u]

namespace Expr

def temporariesLinked (interior : Bool) : Nat → List Temporary
  | 0 => []
  | n + 1 => ⟨"py.boolOp", interior && n == 0⟩ :: temporariesLinked interior n

mutual

/-- The temporaries of an expression in the order in which they are made, given how far the variables
have come and whether the expression is an operand inside a chain of comparisons. -/
def temporaries (phase : String → Phase) (interior : Bool) : Expr → List Temporary
  | mk form _ =>
    match form with
    | .name id => if phase id = .moved then [⟨"py.load", interior⟩] else []
    | .constant _ _ => [⟨"py.constant", interior⟩]
    | .binOp left _ right =>
      left.temporaries phase false ++ right.temporaries phase false ++ [⟨"py.binOp", interior⟩]
    | .unaryOp _ e => e.temporaries phase false ++ [⟨"py.unaryOp", interior⟩]
    | .boolOp _ values =>
      match values with
      | first :: rest => first.temporaries phase false ++ temporariesJoined phase interior rest
      | [] => []
    | .compare left ops comparators =>
      left.temporaries phase false ++ temporariesEach phase true comparators ++
        List.replicate ops.length ⟨"py.compare", interior && ops.length == 1⟩ ++
        temporariesLinked interior (ops.length - 1)
    | .call _ args _ => temporariesEach phase false args ++ [⟨"py.call", interior⟩]
    | _ => []
termination_by structural e => e

/-- The temporaries of operands. In a chain of comparisons all operands on the right but the last one are
inside it. -/
def temporariesEach (phase : String → Phase) (chained : Bool) : List Expr → List Temporary
  | [] => []
  | e :: rest => e.temporaries phase (chained && !rest.isEmpty) ++ temporariesEach phase chained rest
termination_by structural es => es

def temporariesJoined (phase : String → Phase) (interior : Bool) : List Expr → List Temporary
  | [] => []
  | e :: rest =>
    e.temporaries phase false ++
      ⟨"py.boolOp", interior && rest.isEmpty⟩ :: temporariesJoined phase interior rest
termination_by structural es => es

end

end Expr

/-- The operators take values from elsewhere and results of those before them. -/
def Scoped (V : ValueId → Prop) : List Head → Prop
  | [] => True
  | h :: hs => (∀ v ∈ h.args, V v) ∧ Scoped (fun v => V v ∨ v ∈ h.results) hs

theorem Scoped.mono {hs : List Head} {V W : ValueId → Prop} (h : Scoped V hs) (hVW : ∀ v, V v → W v) :
    Scoped W hs := by
  induction hs generalizing V W with
  | nil => trivial
  | cons k hs ih =>
    refine ⟨fun v hv => hVW v (h.1 v hv), ih h.2 ?_⟩
    rintro v (hv | hv)
    · exact .inl (hVW v hv)
    · exact .inr hv

theorem Scoped.append {hs ks : List Head} {V : ValueId → Prop} (h : Scoped V hs)
    (h' : Scoped (fun v => V v ∨ v ∈ hs.flatMap Head.results) ks) : Scoped V (hs ++ ks) := by
  induction hs generalizing V with
  | nil => exact h'.mono (by simp)
  | cons k hs ih =>
    refine ⟨h.1, ih h.2 (h'.mono ?_)⟩
    intro v hv
    simpa [or_assoc] using hv

theorem Scoped.drawn {hs : List Head} {V : ValueId → Prop} (h : Scoped V hs) :
    Drawn V (hs.flatMap Head.results) (hs.flatMap Head.usages) := by
  induction hs generalizing V with
  | nil => simp [Drawn]
  | cons k hs ih =>
    intro u hu
    rw [List.flatMap_cons] at hu ⊢
    rcases List.mem_append.mp hu with hu | hu
    · exact .inl (h.1 _ (Head.mem_args_of_mem_usages hu))
    · rcases ih h.2 u hu with (hv | hv) | hv
      · exact .inl hv
      · exact .inr (List.mem_append_left _ hv)
      · exact .inr (List.mem_append_right _ hv)

/-- The operators make the temporaries, and each of them meets its end in what follows it: the rest of the
line and then the uses `extra`. -/
inductive SpentAfter (extra : List Usage) : List Head → List Temporary → Prop
  | nil : SpentAfter extra [] []
  | cons {h : Head} {v : ValueId} {t : Temporary} {hs : List Head} {ts : List Temporary}
      (opcode : h.opcode = t.opcode) (results : h.results = [v])
      (due : Due t.interior v (usesOf v (hs.flatMap Head.usages ++ extra)))
      (rest : SpentAfter extra hs ts) : SpentAfter extra (h :: hs) (t :: ts)

theorem SpentAfter.append {extra : List Usage} {hs ks : List Head} {ts us : List Temporary}
    (h : SpentAfter (ks.flatMap Head.usages ++ extra) hs ts) (h' : SpentAfter extra ks us) :
    SpentAfter extra (hs ++ ks) (ts ++ us) := by
  induction h with
  | nil => exact h'
  | cons opcode results due _ ih =>
    refine .cons opcode results ?_ ih
    rw [List.append_eq, List.flatMap_append, List.append_assoc]
    exact due

/-- A value that is still to be taken, and what has to become of it. -/
structure Pledge where
  value : ValueId
  due : List Usage → Prop

def Pledge.of (interior : Bool) (v : ValueId) : Pledge := ⟨v, Due interior v⟩

/-- The second use of an operand inside a chain. -/
private def Again (v : ValueId) (us : List Usage) : Prop := us = [⟨v, "py.compare", 0⟩]

def pledges (chained : Bool) : List ValueId → List Pledge
  | [] => []
  | v :: vs => .of (chained && !vs.isEmpty) v :: pledges chained vs

theorem map_value_pledges (chained : Bool) (vs : List ValueId) :
    (pledges chained vs).map Pledge.value = vs := by
  induction vs with
  | nil => rfl
  | cons v vs ih => rw [pledges, List.map_cons, ih, Pledge.of]

private theorem pledges_false (vs : List ValueId) : pledges false vs = vs.map (.of false) := by
  induction vs with
  | nil => rfl
  | cons v vs ih => rw [pledges, ih, Bool.false_and, List.map_cons]

theorem exists_of_mem_pledges {chained : Bool} {vs : List ValueId} {p : Pledge}
    (hp : p ∈ pledges chained vs) :
    ∃ interior v, p = .of interior v ∧ (chained = false → interior = false) := by
  induction vs with
  | nil => cases hp
  | cons v vs ih =>
    rcases List.mem_cons.mp hp with rfl | hp
    · exact ⟨_, v, rfl, fun h => by simp [h]⟩
    · exact ih hp

/-- The uses keep the pledges for values of the line, and take no other value of it. -/
structure Honours (ids : List ValueId) (xs : List Pledge) (extra : List Usage) : Prop where
  others : ∀ v ∈ ids, v ∉ xs.map Pledge.value → usesOf v extra = []
  kept : ∀ p ∈ xs, p.value ∈ ids → p.due (usesOf p.value extra)

/-- A line of operators with what is pledged: once the pledges are kept by the uses after the line, its
temporaries are spent as they should be. -/
structure Pledged (V : ValueId → Prop) (hs : List Head) (xs : List Pledge) (ts : List Temporary) :
    Prop where
  counted : ∀ v ∈ hs.flatMap Head.results, v.counter? ≠ none
  opcodes : ∀ h ∈ hs, h.opcode ∈ operandOpcodes
  made : hs.map Head.opcode = ts.map Temporary.opcode
  ordered : Scoped V hs
  known : ∀ p ∈ xs, V p.value ∨ p.value ∈ hs.flatMap Head.results
  once : Afresh V (hs.flatMap Head.results) →
    ∀ v ∈ hs.flatMap Head.results, (xs.map Pledge.value).count v ≤ 1
  spent : Afresh V (hs.flatMap Head.results) → ∀ extra : List Usage,
    Honours (hs.flatMap Head.results) xs extra → SpentAfter extra hs ts

namespace Pledged

variable {V : ValueId → Prop} {hs ks : List Head} {xs ys : List Pledge} {ts us : List Temporary}

theorem nil : Pledged V [] [] [] where
  counted := by simp
  opcodes := by simp
  made := rfl
  ordered := trivial
  known := by simp
  once _ := by simp
  spent _ _ _ := .nil

private theorem value {v : ValueId} (hv : V v) (interior : Bool) : Pledged V [] [.of interior v] [] where
  counted := by simp
  opcodes := by simp
  made := rfl
  ordered := trivial
  known p hp := .inl (by rw [List.mem_singleton.mp hp]; exact hv)
  once _ := by simp
  spent _ _ _ := .nil

private theorem perm (h : Pledged V hs xs ts) (hperm : xs.Perm ys) : Pledged V hs ys ts where
  counted := h.counted
  opcodes := h.opcodes
  made := h.made
  ordered := h.ordered
  known p hp := h.known p (hperm.mem_iff.mpr hp)
  once fresh v hv := by
    rw [← (hperm.map Pledge.value).count_eq]
    exact h.once fresh v hv
  spent fresh extra honours := h.spent fresh extra
    ⟨fun v hv hx => honours.others v hv fun hy => hx ((hperm.map Pledge.value).mem_iff.mpr hy),
      fun p hp => honours.kept p (hperm.mem_iff.mp hp)⟩

private theorem notMem (h : Pledged V hs xs ts) {v : ValueId} (hV : ¬ V v)
    (hv : v ∉ hs.flatMap Head.results) :
    v ∉ xs.map Pledge.value := by
  intro hmem
  obtain ⟨p, hp, rfl⟩ := List.mem_map.mp hmem
  exact (h.known p hp).elim hV hv

theorem append (h : Pledged V hs xs ts) (h' : Pledged V ks ys us) :
    Pledged V (hs ++ ks) (xs ++ ys) (ts ++ us) where
  counted v hv := by
    rw [List.flatMap_append] at hv
    exact (List.mem_append.mp hv).elim (h.counted v) (h'.counted v)
  opcodes k hk := (List.mem_append.mp hk).elim (h.opcodes k) (h'.opcodes k)
  made := by rw [List.map_append, List.map_append, h.made, h'.made]
  ordered := h.ordered.append (h'.ordered.mono fun v hv => .inl hv)
  known p hp := by
    rw [List.flatMap_append]
    rcases List.mem_append.mp hp with hp | hp
    · exact (h.known p hp).imp_right (List.mem_append_left _)
    · exact (h'.known p hp).imp_right (List.mem_append_right _)
  once fresh v hv := by
    rw [List.flatMap_append] at fresh hv
    rw [List.map_append, List.count_append]
    rcases List.mem_append.mp hv with hv | hv
    · have hother := h'.notMem (fresh.left.outside v hv) (fresh.notMem_right hv)
      rw [List.count_eq_zero_of_not_mem hother, Nat.add_zero]
      exact h.once fresh.left v hv
    · have hother := h.notMem (fresh.right.outside v hv) (fresh.notMem_left hv)
      rw [List.count_eq_zero_of_not_mem hother, Nat.zero_add]
      exact h'.once fresh.right v hv
  spent fresh extra honours := by
    rw [List.flatMap_append] at fresh honours
    have hsecond : ∀ v ∈ hs.flatMap Head.results, usesOf v (ks.flatMap Head.usages ++ extra) =
        usesOf v extra := by
      intro v hv
      rw [usesOf_append, h'.ordered.drawn.usesOf_eq_nil (fresh.left.outside v hv) (fresh.notMem_right hv),
        List.nil_append]
    refine .append (h.spent fresh.left _ ⟨?_, ?_⟩) (h'.spent fresh.right extra ⟨?_, ?_⟩)
    · intro v hv hx
      have hy := h'.notMem (fresh.left.outside v hv) (fresh.notMem_right hv)
      rw [hsecond v hv]
      exact honours.others v (List.mem_append_left _ hv) (by simp [hx, hy])
    · intro p hp hv
      rw [hsecond _ hv]
      exact honours.kept p (List.mem_append_left _ hp) (List.mem_append_left _ hv)
    · intro v hv hy
      have hx := h.notMem (fresh.right.outside v hv) (fresh.notMem_left hv)
      exact honours.others v (List.mem_append_right _ hv) (by simp [hx, hy])
    · intro p hp hv
      exact honours.kept p (List.mem_append_right _ hp) (List.mem_append_right _ hv)

section Take

variable {taken more left : List Pledge} {k : Head} {w : ValueId} {interior : Bool}

private theorem notMem_renewed
    (renewed : ∀ v, (more.map Pledge.value).count v ≤ (taken.map Pledge.value).count v) {v : ValueId}
    (hv : v ∉ taken.map Pledge.value) : v ∉ more.map Pledge.value := by
  have hcount := renewed v
  rw [List.count_eq_zero_of_not_mem hv, Nat.le_zero] at hcount
  exact List.count_eq_zero.mp hcount

/-- Uses that keep the pledges after an operator keep those before it, together with its own uses. -/
private theorem honours_before {ids : List ValueId} {extra : List Usage} (hw : w ∉ ids)
    (once : ∀ v ∈ ids, ((taken ++ left).map Pledge.value).count v ≤ 1)
    (args : k.args = taken.map Pledge.value)
    (renewed : ∀ v, (more.map Pledge.value).count v ≤ (taken.map Pledge.value).count v)
    (due : ∀ p ∈ taken, (taken.map Pledge.value).count p.value = 1 → ∀ us,
      (p.value ∉ more.map Pledge.value → us = []) → (∀ q ∈ more, q.value = p.value → q.due us) →
      p.due (usesOf p.value k.usages ++ us))
    (honours : Honours (ids ++ [w]) (.of interior w :: (more ++ left)) extra) :
    Honours ids (taken ++ left) (k.usages ++ extra) := by
  have hspare : ∀ v, v ∉ taken.map Pledge.value → usesOf v (k.usages ++ extra) = usesOf v extra := by
    intro v hv
    rw [usesOf_append, usesOf_eq_nil, List.nil_append]
    rintro u hu rfl
    exact hv (args ▸ Head.mem_args_of_mem_usages hu)
  have hidle : ∀ v ∈ ids, v ∉ more.map Pledge.value → v ∉ left.map Pledge.value →
      usesOf v extra = [] := by
    intro v hv hnew hleft
    refine honours.others v (List.mem_append_left _ hv) ?_
    have hne : v ≠ w := fun h => hw (h ▸ hv)
    rw [List.map_cons, List.map_append, List.mem_cons, List.mem_append, not_or, not_or]
    exact ⟨hne, hnew, hleft⟩
  constructor
  · intro v hv hnot
    rw [List.map_append, List.mem_append, not_or] at hnot
    rw [hspare v hnot.1]
    exact hidle v hv (notMem_renewed renewed hnot.1) hnot.2
  · intro p hp hv
    have hone := once _ hv
    rw [List.map_append, List.count_append] at hone
    rcases List.mem_append.mp hp with hp | hp
    · have htaken := List.count_pos_iff.mpr (List.mem_map_of_mem (f := Pledge.value) hp)
      have hleft : (left.map Pledge.value).count p.value = 0 := by omega
      rw [usesOf_append]
      refine due p hp (by omega) _ (fun hnew => hidle _ hv hnew (List.count_eq_zero.mp hleft)) ?_
      intro q hq hqp
      rw [← hqp] at hv ⊢
      exact honours.kept q (List.mem_cons_of_mem _ (List.mem_append_left _ hq)) (List.mem_append_left _ hv)
    · have hleft := List.count_pos_iff.mpr (List.mem_map_of_mem (f := Pledge.value) hp)
      have htaken : (taken.map Pledge.value).count p.value = 0 := by omega
      rw [hspare _ (List.count_eq_zero.mp htaken)]
      exact honours.kept p (List.mem_cons_of_mem _ (List.mem_append_right _ hp))
        (List.mem_append_left _ hv)

/-- An operator takes values that are pledged. Its own result is pledged then, and a value that it takes
may be pledged anew. -/
theorem take (h : Pledged V hs (taken ++ left) ts) (opcode : k.opcode ∈ operandOpcodes)
    (results : k.results = [w]) (number : w.counter? ≠ none) (args : k.args = taken.map Pledge.value)
    (renewed : ∀ v, (more.map Pledge.value).count v ≤ (taken.map Pledge.value).count v)
    (due : ∀ p ∈ taken, (taken.map Pledge.value).count p.value = 1 → ∀ us,
      (p.value ∉ more.map Pledge.value → us = []) → (∀ q ∈ more, q.value = p.value → q.due us) →
      p.due (usesOf p.value k.usages ++ us)) :
    Pledged V (hs ++ [k]) (.of interior w :: (more ++ left)) (ts ++ [⟨k.opcode, interior⟩]) := by
  have hids : (hs ++ [k]).flatMap Head.results = hs.flatMap Head.results ++ [w] := by simp [results]
  constructor
  · intro v hv
    rw [hids] at hv
    rcases List.mem_append.mp hv with hv | hv
    · exact h.counted v hv
    · rw [List.mem_singleton.mp hv]
      exact number
  · intro x hx
    rcases List.mem_append.mp hx with hx | hx
    · exact h.opcodes x hx
    · rw [List.mem_singleton.mp hx]
      exact opcode
  · rw [List.map_append, List.map_append, h.made]
    rfl
  · refine h.ordered.append ⟨?_, trivial⟩
    intro v hv
    rw [args] at hv
    obtain ⟨p, hp, rfl⟩ := List.mem_map.mp hv
    exact h.known p (List.mem_append_left _ hp)
  · intro p hp
    rw [hids]
    rcases List.mem_cons.mp hp with rfl | hp
    · exact .inr (List.mem_append_right _ (List.mem_singleton.mpr rfl))
    rcases List.mem_append.mp hp with hp | hp
    · have htaken : p.value ∈ taken.map Pledge.value := by
        by_contra hnot
        exact notMem_renewed renewed hnot (List.mem_map_of_mem hp)
      obtain ⟨q, hq, hqp⟩ := List.mem_map.mp htaken
      rw [← hqp]
      exact (h.known q (List.mem_append_left _ hq)).imp_right (List.mem_append_left _)
    · exact (h.known p (List.mem_append_right _ hp)).imp_right (List.mem_append_left _)
  · intro fresh v hv
    rw [hids] at fresh hv
    have hcount : ((Pledge.of interior w :: (more ++ left)).map Pledge.value).count v =
        (more.map Pledge.value).count v + (left.map Pledge.value).count v + if w = v then 1 else 0 := by
      rw [List.map_cons, List.map_append, List.count_cons, List.count_append]
      simp [Pledge.of]
    have hrenewed := renewed v
    rw [hcount]
    rcases List.mem_append.mp hv with hv | hv
    · have hone := h.once fresh.left v hv
      rw [List.map_append, List.count_append] at hone
      have hne : w ≠ v := by
        rintro rfl
        exact fresh.notMem_right hv (List.mem_singleton.mpr rfl)
      rw [if_neg hne]
      omega
    · have hnot := h.notMem (fresh.right.outside v hv) (fresh.notMem_left hv)
      rw [List.map_append, List.mem_append, not_or, ← List.count_eq_zero, ← List.count_eq_zero] at hnot
      rw [if_pos (List.mem_singleton.mp hv).symm]
      omega
  · intro fresh extra honours
    rw [hids] at fresh honours
    have hw : w ∉ hs.flatMap Head.results := fresh.notMem_left (List.mem_singleton.mpr rfl)
    have hline : SpentAfter (k.usages ++ extra) hs ts := h.spent fresh.left _
      (honours_before hw (h.once fresh.left) args renewed due honours)
    refine .append ?_ (.cons rfl results ?_ .nil)
    · rw [List.flatMap_singleton]
      exact hline
    · exact honours.kept (.of interior w) List.mem_cons_self (by simp [Pledge.of])

end Take

private theorem op {vs : List ValueId} {left : List Pledge} {k : Head} {w : ValueId}
    (h : Pledged V hs (pledges false vs ++ left) ts) (opcode : k.opcode ∈ operandOpcodes)
    (results : k.results = [w]) (number : w.counter? ≠ none) (args : k.args = vs) (interior : Bool) :
    Pledged V (hs ++ [k]) (.of interior w :: left) (ts ++ [⟨k.opcode, interior⟩]) := by
  have hvalues := map_value_pledges false vs
  show Pledged V (hs ++ [k]) (.of interior w :: ([] ++ left)) (ts ++ [⟨k.opcode, interior⟩])
  refine h.take opcode results number (args.trans hvalues.symm) (by simp) ?_
  intro p hp hone us hus _
  rw [hvalues, ← args, ← Head.length_usesOf] at hone
  rw [hus (by simp), List.append_nil]
  obtain ⟨b, v, rfl, hb⟩ := exists_of_mem_pledges hp
  rw [hb rfl]
  exact List.length_eq_one_iff.mp hone

private theorem compare {p q : Pledge} {more left : List Pledge} {k : Head} {w : ValueId}
    (h : Pledged V hs (p :: q :: left) ts) (opcode : k.opcode = "py.compare") (results : k.results = [w])
    (number : w.counter? ≠ none) (args : k.args = [p.value, q.value])
    (first : p.due [⟨p.value, "py.compare", 0⟩])
    (second : more = [] ∧ q.due [⟨q.value, "py.compare", 1⟩] ∨
      ∃ due, more = [⟨q.value, due⟩] ∧ ∀ us, due us → q.due (⟨q.value, "py.compare", 1⟩ :: us))
    (interior : Bool) :
    Pledged V (hs ++ [k]) (.of interior w :: (more ++ left)) (ts ++ [⟨"py.compare", interior⟩]) := by
  have husages : k.usages = [⟨p.value, "py.compare", 0⟩, ⟨q.value, "py.compare", 1⟩] := by
    rw [Head.usages, args, opcode]
    rfl
  have hmore : ∀ r ∈ more, r.value = q.value := by
    rcases second with ⟨rfl, -⟩ | ⟨due, rfl, -⟩ <;> simp
  have hall : Pledged V hs ([p, q] ++ left) ts := h
  rw [← opcode]
  refine hall.take (by rw [opcode]; decide) results number args ?_ ?_
  · rcases second with ⟨rfl, -⟩ | ⟨due, rfl, -⟩ <;> intro v <;> simp [List.count_cons]
  intro r hr hone us hnone hdue
  rw [husages]
  have hne : p.value ≠ q.value := by
    intro heq
    rcases List.mem_pair.mp hr with rfl | rfl <;> simp [heq] at hone
  rcases List.mem_pair.mp hr with rfl | rfl
  · have hus : us = [] := hnone fun hmem => by
      obtain ⟨x, hx, hxr⟩ := List.mem_map.mp hmem
      exact hne (hxr.symm.trans (hmore x hx))
    simpa [usesOf, hne.symm, hus] using first
  · rcases second with ⟨rfl, hq⟩ | ⟨due, rfl, hq⟩
    · simpa [usesOf, hne, hnone (by simp)] using hq
    · simpa [usesOf, hne] using hq us (hdue _ List.mem_cons_self rfl)

end Pledged

/-- Every value that a variable holds is one from elsewhere. -/
def State.Holding (V : ValueId → Prop) (s : State) : Prop := ∀ a b v, s.home a = .pending b v → V v

theorem State.Holding.congr {V : ValueId → Prop} {s t : State} (h : s.Holding V)
    (home : ∀ a, t.home a = s.home a) : t.Holding V := fun a b v hp => h a b v (home a ▸ hp)

private theorem State.Holding.valueOf {V : ValueId → Prop} {s : State} {name : String} (h : s.Holding V)
    (named : V (.named name)) : V ((s.home name).valueOf name) := by
  cases hhome : s.home name with
  | pending b v => exact h name b v hhome
  | undefined => exact named
  | memory => exact named

private theorem Appended.phases {s t : State} {hs : List Head} (h : Appended s hs t) :
    t.phases = s.phases := by
  funext a
  rw [State.phases, h.home, State.phases]

variable {V : ValueId → Prop}

private theorem State.emitResult_pledged {s t : State} {h : Head} {ty : Ty} {x : Operand}
    {opcode : String}
    {xs : List Operand} {hs : List Head} {left : List Pledge} {ts : List Temporary}
    (emit : s.emitResult h ty = (x, t)) (computes : h.Computes) (takes : h.Takes xs)
    (hopcode : h.opcode = opcode) (line : Pledged V hs (pledges false (xs.map Prod.fst) ++ left) ts)
    (interior : Bool) :
    Pledged V (hs ++ [h.withResult x.1 ty]) (.of interior x.1 :: left) (ts ++ [⟨opcode, interior⟩]) := by
  subst hopcode
  refine line.op (k := h.withResult x.1 ty) computes.opcode ?_ ?_ takes.args interior
  · simp
  · simp [(State.emitResult_appended emit).1]

private theorem Compares.length_eq {ops : List CmpOperator} {xs results : List Operand} {s t : State}
    {hs : List Head} (pairs : Compares ops xs s hs results t) : results.length = ops.length := by
  induction pairs with
  | last => rfl
  | cons _ _ ih => simp [ih]

private theorem Compares.pledged {ops : List CmpOperator} {left : Operand}
    {rights results : List Operand}
    {s t : State} {due : List Usage → Prop} {hs ks : List Head} {others : List Pledge}
    {ts : List Temporary} (pairs : Compares ops (left :: rights) s ks results t)
    (line : Pledged V hs (⟨left.1, due⟩ :: (pledges true (rights.map Prod.fst) ++ others)) ts)
    (hleft : due [⟨left.1, "py.compare", 0⟩]) (interior : Bool) :
    Pledged V (hs ++ ks) ((results.map fun r => .of interior r.1) ++ others)
      (ts ++ List.replicate ops.length ⟨"py.compare", interior⟩) := by
  induction ops generalizing left rights results s due hs ks others ts with
  | nil => cases pairs
  | cons op ops ih =>
    cases pairs with
    | last emit =>
      exact line.compare rfl rfl (by simp [(State.emitResult_appended emit).1]) rfl hleft
        (.inl ⟨rfl, _, rfl⟩) interior
    | @cons _ _ _ right x more results ks _ _ _ emit rest =>
      obtain _ | ⟨last, more⟩ := more
      · cases rest
      have hline : Pledged V _ (.of interior x.1 :: ⟨right.1, Again right.1⟩ ::
          (pledges true ((last :: more).map Prod.fst) ++ others)) _ :=
        line.compare (k := (compareHead op left right).withResult x.1 .unknown) rfl rfl
          (by simp [(State.emitResult_appended emit).1]) rfl hleft
          (.inr ⟨Again right.1, rfl, fun us hus => by rw [hus]; rfl⟩) interior
      have hnext : Pledged V _ (⟨right.1, Again right.1⟩ ::
          (pledges true ((last :: more).map Prod.fst) ++ (.of interior x.1 :: others))) _ :=
        hline.perm (.trans (.swap ..) (.cons _ List.perm_middle.symm))
      have hrests := ih rest hnext rfl
      rw [List.append_assoc, List.append_assoc] at hrests
      exact hrests.perm List.perm_middle

private theorem Conjoins.pledged {first x : Operand} {rest : List Operand} {s t : State}
    {hs ks : List Head}
    {ts : List Temporary} {interior : Bool} (joined : Conjoins first rest s ks x t)
    (line : Pledged V hs
      (.of (interior && rest.isEmpty) first.1 :: pledges false (rest.map Prod.fst)) ts) :
    Pledged V (hs ++ ks) [.of interior x.1] (ts ++ Expr.temporariesLinked interior rest.length) := by
  induction joined generalizing hs ts with
  | nil => simpa [Expr.temporariesLinked, pledges] using line
  | @cons first next _ _ more _ _ _ _ emit _ ih =>
    have hjoined : Pledged V hs (pledges false ([first, next].map Prod.fst) ++
        pledges false (more.map Prod.fst)) ts := by simpa [pledges] using line
    have hrest := ih (State.emitResult_pledged emit (boolHead_computes .and first next)
      (boolHead_takes ..) rfl hjoined (interior && more.isEmpty))
    rw [List.append_assoc, List.append_assoc] at hrest
    have hlast : more.isEmpty = (more.length == 0) := by cases more <;> rfl
    rw [List.length_cons, Expr.temporariesLinked, ← hlast]
    exact hrest

private theorem pledged_start :
    Pledged V [] (pledges false (([] : List Operand).map Prod.fst) ++ []) [] := .nil

mutual

/-- The line of an expression pledges its value, and its temporaries are those of the expression. -/
theorem Flattens.pledged : {e : Expr} → {s t : State} → {hs : List Head} → {x : Operand} →
    Flattens e s hs x t → s.Holding V → (∀ name ∈ e.reads, V (.named name)) → (interior : Bool) →
    Pledged V hs [.of interior x.1] (e.temporaries s.phases interior)
  | _, _, _, _, _, .load home, _, _, interior => by
    rw [Expr.temporaries, if_pos (State.phases_eq_moved.mpr home)]
    exact pledged_start.op (k := loadHead ..)
      (by simp [Head.opcode, loadHead, Dialect.text, operandOpcodes]) rfl (by simp) rfl interior
  | _, _, _, _, _, .value home, holding, named, interior => by
    rw [Expr.temporaries, if_neg fun h => home (State.phases_eq_moved.mp h)]
    exact .value (holding.valueOf (named _ (by simp [Expr.reads]))) interior
  | _, _, _, _, _, @Flattens.constant _ kind _ _ _ _ emit, _, _, interior =>
    State.emitResult_pledged emit (constantHead_computes _ kind) (constantHead_takes _ kind)
      (show _ = "py.constant" by cases kind <;> rfl) pledged_start interior
  | _, _, _, _, _, .binOp first second emit, holding, named, interior => by
    rw [Expr.reads, List.forall_mem_append] at named
    have hleft := first.pledged holding named.1 false
    have hright := second.pledged (holding.congr first.appended.home) named.2 false
    rw [first.appended.phases] at hright
    exact State.emitResult_pledged emit (binaryHead_computes ..) (binaryHead_takes ..) rfl
      (hleft.append hright) interior
  | _, _, _, _, _, .unaryOp operand emit, holding, named, interior => by
    rw [Expr.reads] at named
    exact State.emitResult_pledged emit (unaryHead_computes ..) (unaryHead_takes ..) rfl
      (operand.pledged holding named false) interior
  | _, _, _, _, _, .boolOp operand joined, holding, named, interior => by
    rw [Expr.reads, Expr.readsAll, List.forall_mem_append] at named
    have hfirst := operand.pledged holding named.1 (interior && false)
    have hline := joined.pledged (holding.congr operand.appended.home) named.2 hfirst
    rw [operand.appended.phases, Bool.and_false] at hline
    exact hline
  | _, _, _, _, _, @Flattens.compare left ops comparators _ _ _ _ _ _ _ _ _ _ _ _ result rest more even
      operand others pairs joined, holding, named, interior => by
    rw [Expr.reads, List.forall_mem_append] at named
    have hleft := operand.pledged holding named.1 false
    have hothers := others.pledged (holding.congr operand.appended.home) named.2 true
    have hall := hleft.append hothers
    rw [← List.append_nil (pledges true (rest.map Prod.fst))] at hall
    have hpairs := pairs.pledged hall ⟨_, rfl⟩ (interior && ops.length == 1)
    have hlinks : ((result :: more).map fun r => Pledge.of (interior && ops.length == 1) r.1) ++ [] =
        .of (interior && more.isEmpty) result.1 :: pledges false (more.map Prod.fst) := by
      rw [← pairs.length_eq, List.append_nil, pledges_false]
      cases more <;> simp
    rw [hlinks] at hpairs
    have hmore : more.length = ops.length - 1 := by
      rw [← pairs.length_eq, List.length_cons, Nat.add_sub_cancel]
    have hline := joined.pledged hpairs
    rw [operand.appended.phases, hmore] at hline
    exact hline
  | _, _, _, _, _, .call operands calls emit, holding, named, interior => by
    rw [Expr.reads] at named
    have hargs := operands.pledged holding named false
    rw [← List.append_nil (pledges _ _)] at hargs
    exact State.emitResult_pledged emit calls.computes calls.takes calls.opcode hargs interior

theorem FlattensJoined.pledged : {op : BoolOperator} → {j : Operand} → {es : List Expr} →
    {s t : State} → {ks : List Head} → {x : Operand} → FlattensJoined op j es s ks x t →
    s.Holding V → (∀ name ∈ Expr.readsAll es, V (.named name)) →
    ∀ {hs : List Head} {ts : List Temporary} {interior : Bool},
      Pledged V hs [.of (interior && es.isEmpty) j.1] ts →
      Pledged V (hs ++ ks) [.of interior x.1] (ts ++ Expr.temporariesJoined s.phases interior es)
  | _, _, _, _, _, _, _, .nil, _, _, _, _, _, line => by simpa [Expr.temporariesJoined] using line
  | op, j, _, _, _, _, _, @FlattensJoined.cons _ _ y _ _ _ rest _ _ _ _ _ _ operand emit joined, holding,
    named, _, _, interior, line => by
    rw [Expr.readsAll, List.forall_mem_append] at named
    rw [List.isEmpty_cons, Bool.and_false] at line
    have happ := operand.appended.trans (State.emitResult_appended emit).2
    have hjoined := State.emitResult_pledged emit (boolHead_computes op j y) (boolHead_takes op j y)
      (show _ = "py.boolOp" from rfl) (line.append (operand.pledged holding named.1 false))
      (interior && rest.isEmpty)
    have hline := joined.pledged (holding.congr happ.home) named.2 hjoined
    rw [happ.phases] at hline
    rw [Expr.temporariesJoined]
    simpa only [List.append_assoc, List.cons_append, List.nil_append] using hline

theorem FlattensAll.pledged : {es : List Expr} → {s t : State} → {hs : List Head} →
    {xs : List Operand} → FlattensAll es s hs xs t → s.Holding V →
    (∀ name ∈ Expr.readsAll es, V (.named name)) → (chained : Bool) →
    Pledged V hs (pledges chained (xs.map Prod.fst)) (Expr.temporariesEach s.phases chained es)
  | _, _, _, _, _, .nil, _, _, _ => .nil
  | _, _, _, _, _, @FlattensAll.cons _ rest _ _ _ _ _ _ xs operand others, holding, named, chained => by
    rw [Expr.readsAll, List.forall_mem_append] at named
    have hoperand := operand.pledged holding named.1 (chained && !rest.isEmpty)
    have hrest := others.pledged (holding.congr operand.appended.home) named.2 chained
    have hlast : (xs.map Prod.fst).isEmpty = rest.isEmpty := by
      have hlen := others.length_eq
      cases xs <;> cases rest <;> simp_all
    rw [operand.appended.phases] at hrest
    rw [List.map_cons, pledges, Expr.temporariesEach, hlast]
    exact hoperand.append hrest

end

end RegionIR
