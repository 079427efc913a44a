import RegionIR.Proofs.Pledges
import RegionIR.Proofs.Rows
/-!
# Temporaries are spent where they are made

Every operator that computes an operand stands in a block, with other operators of the block behind it.
All uses of its result are there, and nowhere else in the tree. How many there are, and which, is read
off the source.
-/
namespace RegionIR

open Lower (Runs)
open Operator

namespace Row

def usages : Row → List Usage
  | operator h => h.usages
  | label _ => []

def temps : Row → List ValueId
  | operator h => if h.opcode ∈ operandOpcodes then h.results else []
  | label _ => []

def bound : Row → List ValueId
  | operator h => if h.opcode ∈ operandOpcodes then [] else h.results
  | label l => l.params.map Prod.fst

end Row

/-- An operator in a block, with the operators of the block that stand behind it. -/
structure Spot where
  head : Head
  behind : List Head

namespace Operator

/-- Every use of a value in a tree, in the order of printing. -/
def usages (op : Operator) : List Usage := op.rows.flatMap Row.usages

end Operator

def Walk.spots : Walk (List Operator) Spot :=
  .behind fun op rest => if op.head.opcode ∈ operandOpcodes then [⟨op.head, rest.map Operator.head⟩] else []

namespace Operator

/-- The operators below an operator that compute operands, in the order of printing. -/
def spots (op : Operator) : List Spot := Walk.spots.regions [] op.regions

def spotsAll (ops : List Operator) : List Spot := Walk.spots.items ops ops

private theorem spotsAll_cons (op : Operator) (rest : List Operator) :
    spotsAll (op :: rest) = (if op.head.opcode ∈ operandOpcodes then [⟨op.head, rest.map head⟩] else []) ++
      spots op ++ spotsAll rest := Walk.behind_cons ..

@[simp] theorem spotsRegions_single (label : Option Label) (ops : List Operator) (rs : List Region) :
    Walk.spots.regions [] (.single label ops :: rs) = spotsAll ops ++ Walk.spots.regions [] rs :=
  Walk.behind_single ..

end Operator

/-- A temporary of the source at its place in a tree: the operator has one result, all uses of which are
by operators behind it in the same block, and these uses are the ones that are due. -/
def Spent (all : List Usage) (spot : Spot) (t : Temporary) : Prop :=
  spot.head.opcode = t.opcode ∧ ∃ v, spot.head.results = [v] ∧
    usesOf v all = usesOf v (spot.behind.flatMap Head.usages) ∧ Due t.interior v (usesOf v all)

namespace Stmt

mutual

/-- The temporaries of a statement in the order in which they are printed, given how far the variables of
the scope have come. -/
def temporaries (inFunction : Bool) (phase : String → Phase) : Stmt → List Temporary
  | mk form span =>
    Expr.temporariesEach phase false (inputs (mk form span)) ++
      match form with
      | .functionDef _ params body _ _ => temporariesAll true (Phase.atEntry params.names) body
      | .classDef _ _ _ body _ => temporariesAll false phase body
      | .forIn target _ body _ =>
        temporariesAll inFunction (Phase.after phase (target.name?.toList.map .touch)) body
      | .whileDo _ body _ => temporariesAll inFunction phase body
      | .ifElse _ yes no =>
        temporariesAll inFunction phase yes ++
          temporariesAll inFunction (Phase.after phase (accessesAll inFunction yes)) no
      | _ => []
termination_by structural s => s

def temporariesAll (inFunction : Bool) (phase : String → Phase) : List Stmt → List Temporary
  | [] => []
  | s :: rest =>
    s.temporaries inFunction phase ++
      temporariesAll inFunction (Phase.after phase (Act.accessesAll (acts inFunction s))) rest
termination_by structural ss => ss

end

def temporariesBodies (inFunction : Bool) : (String → Phase) → List (List Stmt) → List Temporary
  | _, [] => []
  | phase, body :: rest =>
    temporariesAll inFunction phase body ++
      temporariesBodies inFunction (Phase.after phase (accessesAll inFunction body)) rest

end Stmt

namespace Operator

private theorem rows_leaves (hs : List Head) : Walk.rows.items () (hs.map leaf) = hs.map .operator := by
  rw [Walk.items_leaves, List.map_eq_flatMap]
  rfl

private theorem rows_step (hs : List Head) (own : Head) (regions : List Region) (ops : List Operator) :
    Walk.rows.items () (hs.map leaf ++ .mk own regions :: ops) =
      (hs ++ [own]).map .operator ++ (Walk.rows.regions () regions ++ Walk.rows.items () ops) := by
  rw [Walk.items_append, rows_leaves, rows_cons, rows_mk]
  simp

def lineSpots (behind : List Head) : List Head → List Spot
  | [] => []
  | h :: hs => ⟨h, hs ++ behind⟩ :: lineSpots behind hs

private theorem map_head_leaves (hs : List Head) : (hs.map leaf).map head = hs := by
  rw [List.map_map]
  exact List.map_id hs

private theorem head_mem_of_mem_lineSpots {behind hs : List Head} {spot : Spot}
    (h : spot ∈ lineSpots behind hs) :
    spot.head ∈ hs := by
  induction hs with
  | nil => cases h
  | cons k hs ih =>
    rcases List.mem_cons.mp h with rfl | h
    · exact List.mem_cons_self
    · exact List.mem_cons_of_mem _ (ih h)

private theorem spotsAll_operands {hs : List Head} (operands : ∀ h ∈ hs, h.opcode ∈ operandOpcodes)
    (ops : List Operator) :
    spotsAll (hs.map leaf ++ ops) = lineSpots (ops.map head) hs ++ spotsAll ops := by
  induction hs with
  | nil => rfl
  | cons h hs ih =>
    rw [List.forall_mem_cons] at operands
    rw [List.map_cons, List.cons_append, spotsAll_cons, ih operands.2, List.map_append, map_head_leaves,
      if_pos (show (leaf h).head.opcode ∈ operandOpcodes from operands.1)]
    rfl

private theorem spotsAll_others {hs : List Head} (others : ∀ h ∈ hs, h.opcode ∉ operandOpcodes)
    (ops : List Operator) : spotsAll (hs.map leaf ++ ops) = spotsAll ops := by
  induction hs with
  | nil => rfl
  | cons h hs ih =>
    rw [List.forall_mem_cons] at others
    rw [List.map_cons, List.cons_append, spotsAll_cons, ih others.2,
      if_neg (show (leaf h).head.opcode ∉ operandOpcodes from others.1)]
    rfl

private theorem mem_usages_of_mem_head {ops : List Operator} {u : Usage}
    (hu : u ∈ (ops.map head).flatMap Head.usages) : u ∈ (Walk.rows.items () ops).flatMap Row.usages := by
  induction ops with
  | nil => simp at hu
  | cons op ops ih =>
    obtain ⟨own, regions⟩ := op
    rw [List.map_cons, List.flatMap_cons] at hu
    rw [rows_cons, List.flatMap_append, rows_mk, List.flatMap_cons]
    rcases List.mem_append.mp hu with hu | hu
    · exact List.mem_append_left _ (List.mem_append_left _ hu)
    · exact List.mem_append_right _ (ih hu)

end Operator

theorem Spent.congr {all others : List Usage} {spot : Spot} {t : Temporary} (h : Spent all spot t)
    (same : ∀ v ∈ spot.head.results, usesOf v others = usesOf v all) : Spent others spot t := by
  obtain ⟨opcode, v, results, behind, due⟩ := h
  have hv := same v (by rw [results]; exact List.mem_singleton.mpr rfl)
  exact ⟨opcode, v, results, hv.trans behind, hv ▸ due⟩

/-- A part of a tree, by its rows and by the places of its temporaries. Its uses are of values from
elsewhere and of its own temporaries, and these are spent as the source tells. -/
structure Accounted (V : ValueId → Prop) (rows : List Row) (spots : List Spot) (ts : List Temporary) :
    Prop where
  counted : ∀ v ∈ rows.flatMap Row.temps, v.counter? ≠ none
  drawn : Drawn V (rows.flatMap Row.temps) (rows.flatMap Row.usages)
  within : ∀ spot ∈ spots, ∀ v ∈ spot.head.results, v ∈ rows.flatMap Row.temps
  spent : Afresh V (rows.flatMap Row.temps) → List.Forall₂ (Spent (rows.flatMap Row.usages)) spots ts

namespace Accounted

variable {V : ValueId → Prop} {rows more : List Row} {spots others : List Spot}
  {ts us : List Temporary}

theorem nil : Accounted V [] [] [] := ⟨by simp, by simp [Drawn], by simp, fun _ => .nil⟩

private theorem label {l : Label} (h : Accounted V rows spots ts) :
    Accounted V (.label l :: rows) spots ts :=
  ⟨h.counted, h.drawn, h.within, h.spent⟩

/-- A part in front of another one. Whether its temporaries are spent may depend on the part behind it. -/
theorem before (counted : ∀ v ∈ rows.flatMap Row.temps, v.counter? ≠ none)
    (drawn : Drawn V (rows.flatMap Row.temps) (rows.flatMap Row.usages))
    (within : ∀ spot ∈ spots, ∀ v ∈ spot.head.results, v ∈ rows.flatMap Row.temps)
    (h : Accounted V more others us)
    (spent : Afresh V (rows.flatMap Row.temps ++ more.flatMap Row.temps) →
      List.Forall₂ (Spent (rows.flatMap Row.usages ++ more.flatMap Row.usages)) spots ts) :
    Accounted V (rows ++ more) (spots ++ others) (ts ++ us) where
  counted v hv := by
    rw [List.flatMap_append] at hv
    exact (List.mem_append.mp hv).elim (counted v) (h.counted v)
  drawn := by
    rw [List.flatMap_append, List.flatMap_append]
    exact drawn.append h.drawn
  within spot hspot v hv := by
    rw [List.flatMap_append]
    rcases List.mem_append.mp hspot with hspot | hspot
    · exact List.mem_append_left _ (within spot hspot v hv)
    · exact List.mem_append_right _ (h.within spot hspot v hv)
  spent fresh := by
    rw [List.flatMap_append] at fresh ⊢
    refine List.rel_append (spent fresh) ?_
    refine ((List.forall₂_and_left _ _).mpr ⟨h.within, h.spent fresh.right⟩).imp ?_
    rintro spot t ⟨hwithin, hspent⟩
    refine hspent.congr fun v hv => ?_
    have hmem := hwithin v hv
    rw [usesOf_append, drawn.usesOf_eq_nil (fresh.right.outside v hmem) (fresh.notMem_left hmem),
      List.nil_append]

theorem append (h : Accounted V rows spots ts) (h' : Accounted V more others us) :
    Accounted V (rows ++ more) (spots ++ others) (ts ++ us) := by
  refine before h.counted h.drawn h.within h' fun fresh => ?_
  refine ((List.forall₂_and_left _ _).mpr ⟨h.within, h.spent fresh.left⟩).imp ?_
  rintro spot t ⟨hwithin, hspent⟩
  refine hspent.congr fun v hv => ?_
  have hmem := hwithin v hv
  rw [usesOf_append, h'.drawn.usesOf_eq_nil (fresh.left.outside v hmem) (fresh.notMem_right hmem),
    List.append_nil]

end Accounted

/-- The temporaries of a line at their places, if `all` has the uses in the line and behind it, and no
other uses of its results. -/
theorem SpentAfter.spots {V : ValueId → Prop} {all : List Usage} {behind hs : List Head}
    {ts : List Temporary} (h : SpentAfter (behind.flatMap Head.usages) hs ts) (ordered : Scoped V hs)
    (fresh : Afresh V (hs.flatMap Head.results))
    (same : ∀ v ∈ hs.flatMap Head.results, usesOf v all = usesOf v ((hs ++ behind).flatMap Head.usages)) :
    List.Forall₂ (Spent all) (lineSpots behind hs) ts := by
  induction h generalizing V with
  | nil => exact .nil
  | @cons k v t hs ts opcode results due rest ih =>
    rw [List.flatMap_cons] at fresh
    -- the operator itself takes nothing that it makes, nor what is made after it
    have hlater : ∀ w ∈ k.results ++ hs.flatMap Head.results,
        usesOf w all = usesOf w ((hs ++ behind).flatMap Head.usages) := by
      intro w hw
      have hnone : usesOf w k.usages = [] := usesOf_eq_nil fun u hu heq =>
        fresh.outside w hw (heq ▸ ordered.1 _ (Head.mem_args_of_mem_usages hu))
      rw [same w (by rwa [List.flatMap_cons]), List.cons_append, List.flatMap_cons, usesOf_append, hnone,
        List.nil_append]
    have hv := hlater v (by simp [results])
    refine .cons ⟨opcode, v, results, hv, ?_⟩ (ih ordered.2 ?_ ?_)
    · rw [hv, List.flatMap_append]
      exact due
    · refine ⟨fresh.right.nodup, ?_⟩
      rintro w hw (hV | hk)
      · exact fresh.right.outside w hw hV
      · exact fresh.notMem_left hw hk
    · exact fun w hw => hlater w (List.mem_append_right _ hw)

/-- An operator that takes nothing but values from elsewhere and makes no temporary. -/
structure Head.Bystander (V : ValueId → Prop) (h : Head) : Prop where
  opcode : h.opcode ∉ operandOpcodes
  args : ∀ v ∈ h.args, V v

private theorem temps_operands {hs : List Head} (operands : ∀ h ∈ hs, h.opcode ∈ operandOpcodes) :
    (hs.map Row.operator).flatMap Row.temps = hs.flatMap Head.results := by
  induction hs with
  | nil => rfl
  | cons h hs ih =>
    rw [List.forall_mem_cons] at operands
    rw [List.map_cons, List.flatMap_cons, List.flatMap_cons, ih operands.2, Row.temps,
      if_pos operands.1]

private theorem temps_others {hs : List Head} (others : ∀ h ∈ hs, h.opcode ∉ operandOpcodes) :
    (hs.map Row.operator).flatMap Row.temps = [] := by
  rw [List.flatMap_eq_nil_iff]
  intro r hr
  obtain ⟨h, hh, rfl⟩ := List.mem_map.mp hr
  rw [Row.temps, if_neg (others h hh)]

private theorem usages_operators (hs : List Head) :
    (hs.map Row.operator).flatMap Row.usages = hs.flatMap Head.usages := by
  rw [List.flatMap_map]
  rfl

private theorem Drawn.bystanders {V : ValueId → Prop} {ks : List Head} (h : ∀ k ∈ ks, k.Bystander V) :
    Drawn V [] (ks.flatMap Head.usages) := by
  intro u hu
  obtain ⟨k, hk, hu⟩ := List.mem_flatMap.mp hu
  exact .inl ((h k hk).args _ (Head.mem_args_of_mem_usages hu))

theorem Drawn.mono {V : ValueId → Prop} {ids more : List ValueId} {us : List Usage} (h : Drawn V ids us)
    (hsub : ids ⊆ more) : Drawn V more us := fun u hu => (h u hu).imp_right fun hmem => hsub hmem

private theorem Drawn.union {V : ValueId → Prop} {ids : List ValueId} {us ws : List Usage}
    (h : Drawn V ids us) (h' : Drawn V ids ws) : Drawn V ids (us ++ ws) := fun u hu =>
  (List.mem_append.mp hu).elim (h u) (h' u)

private theorem Pledged.drawn_args {V : ValueId → Prop} {hs : List Head} {own : Head}
    {ts : List Temporary}
    (line : Pledged V hs (pledges false own.args) ts) : Drawn V (hs.flatMap Head.results) own.usages := by
  intro u hu
  have hmem := Head.mem_args_of_mem_usages hu
  rw [← map_value_pledges false own.args] at hmem
  obtain ⟨p, hp, hpu⟩ := List.mem_map.mp hmem
  rw [← hpu]
  exact line.known p hp

private theorem Head.honours (own : Head) {ids : List ValueId}
    (once : ∀ v ∈ ids, ((pledges false own.args).map Pledge.value).count v ≤ 1) :
    Honours ids (pledges false own.args) own.usages := by
  rw [map_value_pledges] at once
  constructor
  · intro v _ hv
    rw [map_value_pledges] at hv
    exact usesOf_eq_nil fun u hu heq => hv (heq ▸ Head.mem_args_of_mem_usages hu)
  · intro p hp hv
    have hmem : p.value ∈ own.args := map_value_pledges false own.args ▸ List.mem_map_of_mem hp
    have hone := once _ hv
    have hpos := List.count_pos_iff.mpr hmem
    have hlen : (usesOf p.value own.usages).length = 1 := by
      rw [Head.length_usesOf]
      omega
    obtain ⟨b, v, rfl, hb⟩ := exists_of_mem_pledges hp
    rw [hb rfl]
    exact List.length_eq_one_iff.mp hlen

theorem Honours.congr {ids : List ValueId} {xs : List Pledge} {us ws : List Usage}
    (h : Honours ids xs us) (same : ∀ v ∈ ids, usesOf v ws = usesOf v us) : Honours ids xs ws where
  others v hv hx := (same v hv).trans (h.others v hv hx)
  kept p hp hv := by
    rw [same _ hv]
    exact h.kept p hp hv

private theorem Accounted.step {V : ValueId → Prop} {hs ks : List Head} {own : Head}
    {regions : List Region}
    {ops : List Operator} {ts us ws : List Temporary} (line : Pledged V hs (pledges false own.args) ts)
    (stores : ∀ k ∈ ks, k.Bystander V) (opcode : own.opcode ∉ operandOpcodes)
    (inner : Accounted V (Walk.rows.regions () regions) (Walk.spots.regions [] regions) us)
    (rest : Accounted V (Walk.rows.items () ops) (spotsAll ops) ws) :
    Accounted V (Walk.rows.items () ((hs ++ ks).map leaf ++ .mk own regions :: ops))
      (spotsAll ((hs ++ ks).map leaf ++ .mk own regions :: ops)) (ts ++ (us ++ ws)) := by
  have hothers : ∀ h ∈ ks ++ [own], h.opcode ∉ operandOpcodes := by
    intro h hh
    rcases List.mem_append.mp hh with hh | hh
    · exact (stores h hh).opcode
    · rw [List.mem_singleton.mp hh]
      exact opcode
  have hspots : spotsAll ((hs ++ ks).map leaf ++ .mk own regions :: ops) =
      lineSpots (ks ++ own :: ops.map head) hs ++ (Walk.spots.regions [] regions ++ spotsAll ops) := by
    have hheads : (ks.map leaf ++ .mk own regions :: ops).map head = ks ++ own :: ops.map head := by
      rw [List.map_append, map_head_leaves]
      rfl
    rw [List.map_append, List.append_assoc, spotsAll_operands line.opcodes,
      spotsAll_others (fun k hk => (stores k hk).opcode), hheads, spotsAll_cons, spots,
      Operator.regions, if_neg (show (Operator.mk own regions).head.opcode ∉ operandOpcodes from opcode),
      List.nil_append]
  have hrows : Walk.rows.items () ((hs ++ ks).map leaf ++ .mk own regions :: ops) =
      (hs ++ (ks ++ [own])).map .operator ++ (Walk.rows.regions () regions ++ Walk.rows.items () ops) := by
    rw [rows_step, List.append_assoc]
  have htemps : ((hs ++ (ks ++ [own])).map Row.operator).flatMap Row.temps = hs.flatMap Head.results := by
    rw [List.map_append, List.flatMap_append, temps_operands line.opcodes, temps_others hothers,
      List.append_nil]
  have hbody := inner.append rest
  rw [hspots, hrows]
  refine .before ?_ ?_ ?_ hbody fun fresh => ?_ <;> rw [htemps] at *
  · exact line.counted
  · rw [usages_operators, List.flatMap_append, List.flatMap_append, List.flatMap_singleton]
    exact line.ordered.drawn.union ((Drawn.bystanders stores).mono (by simp) |>.union line.drawn_args)
  · intro spot hspot v hv
    exact List.mem_flatMap.mpr ⟨_, head_mem_of_mem_lineSpots hspot, hv⟩
  · rw [List.flatMap_append] at fresh
    -- only the operator of the statement takes what the line leaves
    have hbehind : ∀ v ∈ hs.flatMap Head.results,
        usesOf v ((ks ++ own :: ops.map head).flatMap Head.usages) = usesOf v own.usages := by
      intro v hv
      have hV := fresh.left.outside v hv
      have hrest : v ∉ (Walk.rows.items () ops).flatMap Row.temps := fun h =>
        fresh.notMem_right hv (List.mem_append_right _ h)
      have hheads : Drawn V ((Walk.rows.items () ops).flatMap Row.temps)
          ((ops.map head).flatMap Head.usages) :=
        fun u hu => rest.drawn u (mem_usages_of_mem_head hu)
      rw [List.flatMap_append, List.flatMap_cons, usesOf_append, usesOf_append,
        (Drawn.bystanders stores).usesOf_eq_nil hV (by simp), hheads.usesOf_eq_nil hV hrest,
        List.append_nil, List.nil_append]
    have hall : ∀ v ∈ hs.flatMap Head.results,
        usesOf v (((hs ++ (ks ++ [own])).map Row.operator).flatMap Row.usages ++
          (Walk.rows.regions () regions ++ Walk.rows.items () ops).flatMap Row.usages) =
        usesOf v ((hs ++ (ks ++ own :: ops.map head)).flatMap Head.usages) := by
      intro v hv
      have hV := fresh.left.outside v hv
      have hafter := fresh.notMem_right hv
      rw [← List.flatMap_append] at hafter
      have hfront : usesOf v ((ks ++ [own]).flatMap Head.usages) = usesOf v own.usages := by
        rw [List.flatMap_append, usesOf_append, (Drawn.bystanders stores).usesOf_eq_nil hV (by simp),
          List.nil_append, List.flatMap_singleton]
      rw [usesOf_append, hbody.drawn.usesOf_eq_nil hV hafter, List.append_nil, usages_operators,
        List.flatMap_append, usesOf_append, hfront, List.flatMap_append, usesOf_append, hbehind v hv]
    exact (line.spent fresh.left _ ((own.honours (line.once fresh.left)).congr hbehind)).spots
      line.ordered fresh.left hall

section Statements

variable {V : ValueId → Prop}

private theorem Write.holding {s t : State} {name : String} {r : Option ValueId}
    (write : Write s name r t) (holding : s.Holding V) (new : ∀ v ∈ r, V v) : t.Holding V := by
  intro a b v hp
  cases write with
  | define _ _ _ _ home =>
    rw [home] at hp
    split at hp
    · cases hp
      exact new _ rfl
    · exact holding a b v hp
  | promote _ _ _ _ _ home =>
    rw [home] at hp
    split at hp
    · cases hp
    · exact holding a b v hp
  | mark _ _ _ _ _ home =>
    rw [home] at hp
    split at hp
    · cases hp
    · exact holding a b v hp
  | stay _ _ _ _ _ home =>
    rw [home] at hp
    exact holding a b v hp

private theorem Settles.holding {m t : State} {args : List ValueId} {writes : List Act} {own : Head}
    (h : Settles m args writes own t) (holding : m.Holding V) (new : ∀ v ∈ own.results, V v) :
    t.Holding V := by
  cases h with
  | plain => exact holding
  | define _ _ results _ write => exact write.holding holding fun v hv => new v (by simp_all)
  | store _ _ write => exact write.holding holding (by simp)
  | through _ _ write => exact write.holding holding (by simp)

private theorem Retro.bystanders {s : State} {block : Nat} {P : String → ValueId → Prop} {ls : List Late}
    (retro : Retro (fun a v => s.home a = .pending block v ∧ P a v) ls) (holding : s.Holding V) :
    ∀ k ∈ ls.map Late.head, k.Bystander V := by
  intro k hk
  obtain ⟨⟨a, v, ty⟩, hl, rfl⟩ := List.mem_map.mp hk
  have hhome := ((retro.mem a v).mp ⟨ty, hl⟩).1
  refine ⟨by simp [Late.head, storeHead, Head.opcode, Dialect.text, operandOpcodes], ?_⟩
  intro w hw
  obtain rfl : w = v := by simpa [Late.head, storeHead] using hw
  exact holding a block w hhome

theorem Simple.notOperand {s t : State} {st : Stmt} {own : Head} (one : Simple s st own t) :
    own.opcode ∉ operandOpcodes := by
  have hassign : ∀ (m : State) (name : String) (x : Operand) (declared : Option Ty),
      (m.assign name x declared).1.opcode ∉ operandOpcodes := by
    intro m name x declared
    obtain ⟨hopcode, -⟩ | ⟨hopcode, -⟩ := m.assign_assigns name x declared
    · rw [hopcode]
      cases declared <;> simp [operandOpcodes]
    · rw [hopcode]
      simp [operandOpcodes]
  cases one with
  | assign => exact hassign _ _ _ _
  | annotate => exact hassign _ _ _ _
  | _ => simp [Head.opcode, Dialect.text, operandOpcodes, augHead, fieldHead]

theorem Opens.notOperand {s t : State} {st : Stmt} {own : Head} {slots : List Slot}
    {bodies : List (List Stmt)} {close : State → State} (opens : Opens s st own slots bodies t close) :
    own.opcode ∉ operandOpcodes := by
  cases opens <;> simp [Head.opcode, Dialect.text, operandOpcodes, classHead]

private theorem Simple.pledged {s t : State} {st : Stmt} {own : Head} (one : Simple s st own t)
    (placed : s.Placed) (holding : s.Holding V) (new : ∀ v ∈ own.results, V v)
    (named : ∀ x ∈ Act.namesAll (st.acts s.inFunction), V (.named x)) :
    t.Holding V ∧ ∃ (hs : List Head) (ls : List Late), Gains s t (hs ++ ls.map Late.head) ∧
      (∀ k ∈ ls.map Late.head, k.Bystander V) ∧
      Pledged V hs (pledges false own.args) (Expr.temporariesEach s.phases false st.inputs) := by
  obtain ⟨s₀, xs, m, writes, same, run, settles, acts⟩ := one.computes
  rw [acts, Act.namesAll_append, Act.namesAll_reads, List.forall_mem_append] at named
  obtain ⟨hs, flattens⟩ := Lower.flattensAll_of_operands st.inputs run
  have happ := flattens.appended
  have line := flattens.pledged (holding.congr same.home) named.1 false
  obtain ⟨-, ls, gains, retro⟩ := settles.gains same happ placed.current_lt
  have hstart : m.Holding V := holding.congr fun a => (happ.home a).trans (same.home a)
  have hphases : s₀.phases = s.phases := by
    funext a
    rw [State.phases, same.home, State.phases]
  refine ⟨settles.holding hstart new, hs, ls, gains, retro.bystanders holding, ?_⟩
  rw [settles.args, ← hphases]
  exact line

private theorem Lower.flat_pledged {s t : State} {es : List Expr} {xs : List Operand}
    (run : Runs (Lower.operands es) s xs t) (holding : s.Holding V)
    (named : ∀ x ∈ Expr.readsAll es, V (.named x)) :
    ∃ hs, Flat s (Expr.readsAll es) hs (xs.map Prod.fst).reverse t ∧
      Pledged V hs (pledges false (xs.map Prod.fst)) (Expr.temporariesEach s.phases false es) := by
  obtain ⟨hs, flattens⟩ := Lower.flattensAll_of_operands es run
  exact ⟨hs, by simpa using (flattens.straight .start).flat, flattens.pledged holding named false⟩

private theorem Opens.opening {s t : State} {st : Stmt} {own : Head} {slots : List Slot}
    {bodies : List (List Stmt)} {close : State → State} (opens : Opens s st own slots bodies t close)
    (holding : s.Holding V) (named : ∀ x ∈ Expr.readsAll st.inputs, V (.named x)) :
    ∃ pre hs regions args m, Opening s pre hs slots regions args m ∧ m.blocks = t.blocks ∧
      ((regions = [] ∧ Pledged V hs (pledges false own.args)
          (Expr.temporariesEach s.phases false st.inputs)) ∨
        hs = [] ∧ own.args = [] ∧ ∃ ks x, regions = [yieldRegion ks x] ∧
          Pledged V ks (pledges false (yieldHead x).args)
            (Expr.temporariesEach s.phases false st.inputs)) := by
  cases opens with
  | @branch _ test yes no x _ run =>
    obtain ⟨hs, flat, line⟩ := Lower.flat_pledged (Lower.runs_operands_singleton run)
      holding named
    exact ⟨_, hs, [], _, t, .inline flat, rfl, .inl ⟨rfl, line⟩⟩
  | @whileDo _ _ _ _ x _ region =>
    obtain ⟨hs, flat, line⟩ := Lower.flat_pledged (Lower.runs_operands_singleton region.1)
      (holding.congr fun _ => rfl) named
    exact ⟨_, [], _, _, t, .loop flat region.2 (.inl ⟨rfl, rfl⟩), rfl,
      .inr ⟨rfl, rfl, hs, x, rfl, line⟩⟩
  | @forIn v _ name _ _ x _ _ region =>
    obtain ⟨hs, flat, line⟩ := Lower.flat_pledged (Lower.runs_operands_singleton region.1)
      (holding.congr fun _ => rfl) named
    exact ⟨_, [], _, _, _, .loop flat region.2 (.inr ⟨name, rfl, v.write_writeThrough name⟩), rfl,
      .inr ⟨rfl, rfl, hs, x, rfl, line⟩⟩
  | classDef => exact ⟨_, [], [], [], s, .inline .start, rfl, .inl ⟨rfl, .nil⟩⟩

private theorem Opened.accounted {s t m : State} {st : Stmt} {own : Head} {slots : List Slot}
    {bodies : List (List Stmt)} {close : State → State} {pre : List Act} {hs ks : List Head}
    {regions others : List Region} {ops : List Operator} {us ws : List Temporary}
    (opened : Opened s st own slots bodies t close pre hs regions m)
    (opens : Opens s st own slots bodies t close) (placed : s.Placed) (holding : s.Holding V)
    (named : ∀ x ∈ Expr.readsAll st.inputs, V (.named x)) (stores : ∀ k ∈ ks, k.Bystander V)
    (inner : Accounted V (Walk.rows.regions () others) (Walk.spots.regions [] others) us)
    (rest : Accounted V (Walk.rows.items () ops) (spotsAll ops) ws) :
    Accounted V (Walk.rows.items () ((hs ++ ks).map leaf ++ .mk own (regions ++ others) :: ops))
      (spotsAll ((hs ++ ks).map leaf ++ .mk own (regions ++ others) :: ops))
      (Expr.temporariesEach s.phases false st.inputs ++ us ++ ws) := by
  obtain ⟨_, hs', regions', _, m', opening, hblocks, hline⟩ := opens.opening holding named
  obtain ⟨rfl, rfl⟩ := opened.opening.unique opening placed (by rw [hblocks, opened.start.blocks])
  rcases hline with ⟨rfl, line⟩ | ⟨rfl, hargs, ls, x, rfl, line⟩
  · rw [List.append_assoc]
    exact .step line stores opens.notOperand inner rest
  · have hyield : Accounted V (Walk.rows.regions () [yieldRegion ls x])
        (Walk.spots.regions [] [yieldRegion ls x]) (Expr.temporariesEach s.phases false st.inputs) := by
      have hregion : Accounted V (Walk.rows.items () ((ls ++ []).map leaf ++ [.mk (yieldHead x) []])) _ _ :=
        .step line (by simp) (by simp [yieldHead, Head.opcode, Dialect.text, operandOpcodes]) .nil .nil
      simpa [yieldRegion, leaf] using hregion
    have hempty : Pledged V [] (pledges false own.args) [] := by
      rw [hargs]
      exact .nil
    refine .step hempty stores opens.notOperand ?_ rest
    rw [Walk.regions_append, Walk.regions_append]
    exact hyield.append inner

end Statements

private theorem Simple.temporaries_eq {s t : State} {st : Stmt} {own : Head} (one : Simple s st own t)
    (inFunction : Bool) (phase : String → Phase) :
    st.temporaries inFunction phase = Expr.temporariesEach phase false st.inputs := by
  cases one <;> exact List.append_nil _

private theorem Opens.temporaries_eq {s t : State} {st : Stmt} {own : Head} {slots : List Slot}
    {bodies : List (List Stmt)} {close : State → State} (opens : Opens s st own slots bodies t close) :
    st.temporaries s.inFunction s.phases = Expr.temporariesEach s.phases false st.inputs ++
      Stmt.temporariesBodies t.inFunction t.phases bodies := by
  obtain ⟨hin, hphases⟩ := Prod.ext_iff.mp opens.entering
  dsimp only at hin hphases
  rw [hin, hphases]
  cases opens with
  | @branch _ _ _ no =>
    cases no with
    | nil => simp [Stmt.temporaries, branches, Stmt.temporariesBodies, Stmt.temporariesAll, Stmt.entering]
    | cons first others => simp [Stmt.temporaries, branches, Stmt.temporariesBodies, Stmt.entering]
  | whileDo => simp [Stmt.temporaries, Stmt.temporariesBodies, Stmt.entering]
  | forIn => simp [Stmt.temporaries, Stmt.temporariesBodies, Stmt.entering]
  | classDef => simp [Stmt.temporaries, Stmt.temporariesBodies, Stmt.entering]

private theorem Opens.reads_names {s t : State} {st : Stmt} {own : Head} {slots : List Slot}
    {bodies : List (List Stmt)} {close : State → State} (opens : Opens s st own slots bodies t close)
    (inFunction : Bool) : ∀ x ∈ Expr.readsAll st.inputs, x ∈ Act.namesAll (st.acts inFunction) := by
  cases opens <;> intro x hx <;>
    simp_all [Stmt.acts, Stmt.inputs, Expr.readsAll, Act.namesAll, Act.names, Act.namesAll_append,
      Act.namesAll_reads]

private theorem Opening.holding {V : ValueId → Prop} {s m : State} {pre : List Act} {hs : List Head}
    {slots : List Slot} {regions : List Region} {args : List ValueId}
    (h : Opening s pre hs slots regions args m) (holding : s.Holding V) : m.Holding V := by
  cases h with
  | inline flat => exact holding.congr flat.appended.home
  | loop flat leave written =>
    obtain ⟨-, -, hhome⟩ := flat.yields leave
    obtain ⟨-, rfl⟩ | ⟨name, -, write⟩ := written
    · exact holding.congr hhome
    · exact write.holding (holding.congr hhome) (by simp)

private theorem Binds.holding {V : ValueId → Prop} {s t : State} {names : List String}
    {values : List ValueId} {name : String} {ty : Ty}
    (binds : Binds s.blocks.length (s.declare name ty).pushFunction.enter names values t)
    (new : ∀ v ∈ values, V v) : t.Holding V := by
  intro a b v hp
  exact new v (binds.of_pending hp).2.1

private theorem Accounted.bystanders {V : ValueId → Prop} {tail : List Head}
    (stores : ∀ k ∈ tail, k.Bystander V) :
    Accounted V (Walk.rows.items () (tail.map leaf)) (spotsAll (tail.map leaf)) [] := by
  have hothers : ∀ k ∈ tail, k.opcode ∉ operandOpcodes := fun k hk => (stores k hk).opcode
  have hspots : spotsAll (tail.map leaf) = [] := by
    have hnone := spotsAll_others hothers []
    rwa [List.append_nil] at hnone
  rw [rows_leaves, hspots]
  refine ⟨?_, ?_, by simp, fun _ => .nil⟩
  · rw [temps_others hothers]
    simp
  · rw [usages_operators, temps_others hothers]
    exact .bystanders stores

private theorem forall_bound_step {P : ValueId → Prop} {hs : List Head} {own : Head}
    {regions : List Region} {ops : List Operator} (opcode : own.opcode ∉ operandOpcodes)
    (h : ∀ v ∈ (Walk.rows.items () (hs.map leaf ++ .mk own regions :: ops)).flatMap Row.bound, P v) :
    (∀ v ∈ own.results, P v) ∧ (∀ v ∈ (Walk.rows.regions () regions).flatMap Row.bound, P v) ∧
      ∀ v ∈ (Walk.rows.items () ops).flatMap Row.bound, P v := by
  rw [rows_step, List.map_append, List.append_assoc, List.flatMap_append, List.flatMap_append,
    List.flatMap_append, List.forall_mem_append, List.forall_mem_append, List.forall_mem_append] at h
  obtain ⟨-, hown, hregions, hops⟩ := h
  refine ⟨?_, hregions, hops⟩
  intro v hv
  apply hown v
  rw [List.map_cons, List.map_nil, List.flatMap_singleton, Row.bound, if_neg opcode]
  exact hv

section Programs

variable {V : ValueId → Prop}

mutual

/-- What statements grow is accounted for, whatever stores come behind it in its block. The values that
variables hold are never temporaries. -/
theorem Grows.accounted : ∀ {Z : List String} {s s' : State} {stmts : List Stmt} {ops : List Operator},
    Grows Z s stmts s' ops → s.Placed → (∀ a, s'.home a = .memory → a ∈ Z) → s.Holding V →
    (∀ x ∈ Act.namesAll (Stmt.actsAll s.inFunction stmts), V (.named x)) →
    (∀ v ∈ (Walk.rows.items () ops).flatMap Row.bound, V v) →
    s'.Holding V ∧ ∀ tail : List Head, (∀ k ∈ tail, k.Bystander V) →
      Accounted V (Walk.rows.items () (ops ++ tail.map leaf)) (spotsAll (ops ++ tail.map leaf))
        (Stmt.temporariesAll s.inFunction s.phases stmts)
  | _, _, _, _, _, .nil, _, _, holding, _, _ => ⟨holding, fun _ stores => .bystanders stores⟩
  | Z, s, s', _, _, @Grows.simple _ _ t _ st own stmts hs ops one gains rest, placed, moved, holding,
      named, new => by
    obtain ⟨hown, -, hlater⟩ := forall_bound_step one.notOperand
      (show ∀ v ∈ (Walk.rows.items () (hs.map leaf ++ .mk own [] :: ops)).flatMap Row.bound, V v from new)
    rw [Stmt.actsAll, Act.namesAll_append, List.forall_mem_append] at named
    obtain ⟨hholding, hs', ls, gains', stores, line⟩ := one.pledged placed holding hown named.1
    have hhs := gains.unique gains'
    subst hhs
    have hnext := one.extension.emitted (.ofHead own)
    have hone : Grows Z s [st] _ _ := .simple one gains .nil
    have hphases := hone.phases_between rest placed moved
    rw [Stmt.accessesAll_single] at hphases
    have hin := State.inFunction_congr s hnext.sites
    rw [← hin] at named
    obtain ⟨hend, hrest⟩ := rest.accounted (placed.extension hnext) moved
      (hholding.congr fun _ => rfl) named.2 hlater
    refine ⟨hend, fun tail behind => ?_⟩
    have hrest' := hrest tail behind
    rw [hin, hphases] at hrest'
    have hnone : Accounted V (Walk.rows.regions () []) (Walk.spots.regions [] []) [] := .nil
    rw [List.append_assoc, Stmt.temporariesAll, one.temporaries_eq]
    exact .step line stores one.notOperand hnone hrest'
  | Z, s, s', _, _, @Grows.compound _ _ t m u _ st own slots more bodies close pre hs regions others
      stmts ls ops opens opened inner retro rest, placed, moved, holding, named, new => by
    have hopen := opened.opening.extension
    have hnext := opened.emitted inner.lowers.extension (.ofHead own (slots ++ more))
    have hone : Grows Z s [st] _ _ := .compound opens opened inner retro .nil
    have hphases := hone.phases_between rest placed moved
    rw [Stmt.accessesAll_single] at hphases
    have hin := State.inFunction_congr s hnext.sites
    obtain ⟨-, hregions, hlater⟩ := forall_bound_step opens.notOperand new
    rw [Walk.regions_append, List.flatMap_append, List.forall_mem_append] at hregions
    rw [Stmt.actsAll, Act.namesAll_append, List.forall_mem_append] at named
    have hinput : ∀ x ∈ Expr.readsAll st.inputs, V (.named x) := fun x hx =>
      named.1 x (opens.reads_names s.inFunction x hx)
    rw [opened.acts hopen.sites, Act.namesAll_append, List.forall_mem_append] at named
    obtain ⟨hafter, hinner⟩ := inner.accounted ((placed.extension hopen).sameVars opened.start)
      (fun a h => moved a (rest.lowers.extension.memory a (((opened.finish u).home a).trans h)))
      ((opened.opening.holding holding).congr opened.start.home) named.1.2 hregions.2
    obtain ⟨hend, hrest⟩ := rest.accounted (placed.extension hnext) moved
      (hafter.congr (opened.finish u).home) (by rw [hin]; exact named.2) hlater
    refine ⟨hend, fun tail behind => ?_⟩
    have hrest' := hrest tail behind
    rw [hin, hphases] at hrest'
    rw [List.append_assoc, Stmt.temporariesAll, opens.temporaries_eq]
    exact opened.accounted opens placed holding hinput (retro.bystanders holding) hinner hrest'
  | Z, s, s', _, _, @Grows.function _ _ t u v _ name params body stmts decorators returns span formals
      inside ops accepted bind inner leave rest, placed, moved, holding, named, new => by
    have binds := Lower.binds_of_bindParams bind
    have left := State.left_of_leave? leave
    have houter := binds.home_popFunction inner.lowers.extension.toFrame left
    have hnext := binds.emitted inner.lowers.extension left
      (.ofHead (functionHead name decorators formals (annotatedTy? returns))
        [⟨s.blocks.length, some ⟨entryLabel, formals⟩⟩])
    have hone : Grows Z s [.mk (.functionDef name params body decorators returns) span] _ _ :=
      .function accepted bind inner leave .nil
    have hphases := hone.phases_between rest placed moved
    rw [Stmt.accessesAll_single] at hphases
    have hin := State.inFunction_congr s hnext.sites
    -- a function is a scope of its own, and its parameters are all that has a value at its start
    have hstart := binds.inFunction
    have hopcode : (functionHead name decorators formals (annotatedTy? returns)).opcode ∉
        operandOpcodes := by
      obtain ⟨hdialect, hname⟩ := functionHead_opcode name decorators formals (annotatedTy? returns)
      simp [Head.opcode, hdialect, hname, Dialect.text, operandOpcodes]
    obtain ⟨-, hregions, hlater⟩ := forall_bound_step hopcode
      (show ∀ v ∈ (Walk.rows.items () (([] : List Head).map leaf ++ .mk _ _ :: ops)).flatMap Row.bound,
        V v from new)
    rw [Walk.rows_single, List.append_assoc, List.flatMap_append, List.flatMap_append,
      List.forall_mem_append, List.forall_mem_append] at hregions
    rw [Stmt.actsAll, Stmt.acts, Act.namesAll_append, Act.namesAll, Act.names, Act.namesAll,
      List.append_nil, List.forall_mem_append, List.forall_mem_append] at named
    obtain ⟨-, hinner⟩ := inner.accounted (binds.placed placed)
      (fun a h => (Scope.home_eq_memory _ _).mp h)
      (binds.holding fun w hw => hregions.1 w (by simpa [Row.bound] using hw))
      (by rw [hstart]; exact named.1.2) hregions.2.1
    obtain ⟨hend, hrest⟩ := rest.accounted (placed.extension hnext) moved
      (holding.congr houter) (by rw [hin]; exact named.2) hlater
    refine ⟨hend, fun tail behind => ?_⟩
    have hrest' := hrest tail behind
    have hbody := hinner [] (by simp)
    rw [hin, hphases] at hrest'
    rw [hstart, binds.phases_entry, List.map_nil, List.append_nil] at hbody
    have hentry : Accounted V (Walk.rows.regions () [.single (some ⟨entryLabel, formals⟩) inside])
        (Walk.spots.regions [] [.single (some ⟨entryLabel, formals⟩) inside])
        (Stmt.temporariesAll true (Phase.atEntry params.names) body) := by
      rw [Walk.rows_single, spotsRegions_single, Walk.regions_nil, Walk.regions_nil, List.append_nil,
        List.append_nil]
      exact hbody.label
    have hnone : Pledged V [] (pledges false
        (functionHead name decorators formals (annotatedTy? returns)).args) [] := by
      rw [functionHead_args]
      exact .nil
    have hall : Accounted V
        (Walk.rows.items () (([] ++ [] : List Head).map leaf ++ .mk _ _ :: (ops ++ tail.map leaf))) _ _ :=
      .step hnone (by simp) hopcode hentry hrest'
    rw [Stmt.temporariesAll, Stmt.temporaries, List.append_assoc]
    exact hall

theorem GrowsBodies.accounted : ∀ {Z : List String} {s s' : State} {bodies : List (List Stmt)}
    {slots : List Slot} {regions : List Region}, GrowsBodies Z s bodies slots s' regions → s.Placed →
    (∀ a, s'.home a = .memory → a ∈ Z) → s.Holding V →
    (∀ x ∈ Act.namesAll (bodies.map fun body => .nest (Stmt.actsAll s.inFunction body)), V (.named x)) →
    (∀ v ∈ (Walk.rows.regions () regions).flatMap Row.bound, V v) →
    s'.Holding V ∧ Accounted V (Walk.rows.regions () regions) (Walk.spots.regions [] regions)
      (Stmt.temporariesBodies s.inFunction s.phases bodies)
  | _, _, _, _, _, _, .nil, _, _, holding, _, _ => ⟨holding, .nil⟩
  | Z, s, s', _, _, _, @GrowsBodies.cons _ _ t u _ stmts bodies slots ops ls regions inner leave late
      rest, placed, moved, holding, named, new => by
    have left := State.left_of_leave? leave
    have hregion := inner.lowers.extension.region left
    obtain ⟨hmoved, hphases⟩ := inner.phases_region left rest placed moved
    have hin := State.inFunction_congr s hregion.sites
    rw [List.map_cons, Act.namesAll, Act.names, List.forall_mem_append] at named
    rw [Walk.rows_single, Walk.items_append, List.append_assoc, List.flatMap_append, List.flatMap_append,
      List.flatMap_append, List.forall_mem_append, List.forall_mem_append, List.forall_mem_append] at new
    obtain ⟨-, ⟨hops, -⟩, hregions⟩ := new
    obtain ⟨hend, hinner⟩ := inner.accounted placed.enter hmoved (holding.congr fun _ => rfl) named.1 hops
    rw [← hin] at named
    obtain ⟨hlast, hrest⟩ := rest.accounted (placed.extension (hregion.weaken _)) moved
      (hend.congr left.home) named.2 hregions
    refine ⟨hlast, ?_⟩
    rw [hin, hphases] at hrest
    rw [Walk.rows_single, spotsRegions_single]
    exact (hinner _ (late.bystanders hend)).append hrest

end

end Programs

/-- A tree produces temporaries and ids of variables, and nothing else. -/
theorem perm_temps_bound (rows : List Row) :
    (rows.flatMap Row.temps ++ rows.flatMap Row.bound).Perm (rows.flatMap Row.ids) := by
  refine (List.flatMap_append_perm rows Row.temps Row.bound).trans (.of_eq ?_)
  refine List.flatMap_congr fun r _ => ?_
  cases r with
  | operator h =>
    rw [Row.temps, Row.bound, Row.ids]
    split <;> simp
  | label l => rfl

/-- Temporaries are neither dead nor shared across blocks. The operators of a module that compute operands
are those of its expressions, in order. All uses of such a result are by operators behind it in its own
block. There is one use; inside a chain of comparisons there are two, by two comparisons. -/
theorem temporaries_spent_in_block {stmts : List Stmt} {op : Operator}
    (accepted : (SourceUnit.module stmts).lower = .ok op)
    (plain : ∀ x ∈ Act.namesAll (Stmt.actsAll false stmts), PlainName x) :
    List.Forall₂ (Spent op.usages) op.spots
      (Stmt.temporariesAll false (Phase.atEntry []) stmts) := by
  obtain ⟨t, ops, grows, rfl⟩ := SourceUnit.grows_of_lower accepted
  have hnodup : (Walk.ids.items () ops).Nodup :=
    (grows.draws State.initial_placed plain).nodup List.nodup_nil
  rw [← Walk.rows_give_ids.items () ops, ← (perm_temps_bound _).nodup_iff, List.nodup_append] at hnodup
  -- what a variable holds is not a temporary, and neither is a plain name
  let V : ValueId → Prop := fun v => v ∉ (Walk.rows.items () ops).flatMap Row.temps ∨ v.counter? = none
  obtain ⟨-, haccounted⟩ := grows.accounted (V := V) State.initial_placed
    (fun a h => (Scope.home_eq_memory _ _).mp h) (fun a b v hp => Home.noConfusion hp)
    (fun x hx => .inr (ValueId.counter?_named (plain x hx)))
    (fun v hv => .inl fun htemp => hnodup.2.2 v htemp v hv rfl)
  have htree := haccounted [] (by simp)
  rw [List.map_nil, List.append_nil] at htree
  have hfresh : Afresh V ((Walk.rows.items () ops).flatMap Row.temps) := by
    refine ⟨hnodup.1, fun v hv => ?_⟩
    rintro (hnot | hnone)
    · exact hnot hv
    · exact htree.counted v hv hnone
  have husages : usages (.mk (Head.builtin "module") [.single none ops]) =
      (Walk.rows.items () ops).flatMap Row.usages := by
    simp [usages, rows_mk, Row.usages, Head.usages]
  have hspots : spots (.mk (Head.builtin "module") [.single none ops]) = spotsAll ops := by
    simp [spots, regions]
  rw [husages, hspots]
  exact htree.spent hfresh

/-- `x` goes to memory, and a call stands inside a chain of comparisons with it. -/
def chainedProgram : List Stmt :=
  [.assign "x" (.ofInt 1), .augAssign "x" .add (.ofInt 2),
    .whileDo (.ofForm (.compare (.ofName "a") [.lt, .ltE]
        [.call (.ofName "f") [.ofName "x"] [], .ofName "x"]))
      [.expr (.ofForm (.unaryOp .not (.ofName "x")))]]

theorem chainedProgram_temporaries : ∃ op, (SourceUnit.module chainedProgram).lower = .ok op ∧
    op.spots.map (fun spot => spot.head.results.map ValueId.text) =
      [["%0"], ["%1"], ["%x.2"], ["%3"], ["%x.4"], ["%5"], ["%6"], ["%7"], ["%x.8"], ["%9"]] ∧
    Stmt.temporariesAll false (Phase.atEntry []) chainedProgram =
      [⟨"py.constant", false⟩, ⟨"py.constant", false⟩, ⟨"py.load", false⟩, ⟨"py.call", true⟩,
        ⟨"py.load", false⟩, ⟨"py.compare", false⟩, ⟨"py.compare", false⟩, ⟨"py.boolOp", false⟩,
        ⟨"py.load", false⟩, ⟨"py.unaryOp", false⟩] ∧
    List.Forall₂ (Spent op.usages) op.spots
      (Stmt.temporariesAll false (Phase.atEntry []) chainedProgram) := by
  obtain ⟨op, accepted, hids⟩ := SourceUnit.exists_of_view
    (show (SourceUnit.module chainedProgram).lower.toOption.map
      (fun op => op.spots.map fun spot => spot.head.results.map ValueId.text) =
        some [["%0"], ["%1"], ["%x.2"], ["%3"], ["%x.4"], ["%5"], ["%6"], ["%7"], ["%x.8"], ["%9"]] by
      decide +kernel)
  have hnames : Act.namesAll (Stmt.actsAll false chainedProgram) = ["x", "x", "a", "x", "x", "x"] := rfl
  refine ⟨op, accepted, hids, by decide, temporaries_spent_in_block accepted ?_⟩
  rw [hnames]
  simp [PlainName]

end RegionIR
