import Mathlib
import RegionIR.Ir.Printer
/-!
# Setting attributes

Attributes are a finite map that is built by setting one key after the other. Its listing is in the order of
the keys, so it hangs on the last value of each key alone and not on how the map came about. The same holds
of a whole tree, whose operators have their attributes set in any order.
-/
namespace RegionIR

def utf8 (s : String) : List UInt8 := s.toUTF8.data.toList

private theorem utf8_eq (s : String) : utf8 s = s.toList.flatMap String.utf8EncodeChar := by
  obtain ⟨l, rfl⟩ : ∃ l, s = String.ofList l := ⟨s.toList, String.ofList_toList.symm⟩
  simp [utf8, List.utf8Encode]

private theorem utf8EncodeChar_lt {c d : Char} (h : c < d) (r s : List UInt8) :
    String.utf8EncodeChar c ++ r < String.utf8EncodeChar d ++ s := by
  have hlt : c.val.toNat < d.val.toNat := h
  have hmax : d.val.toNat < 0x110000 := by
    rcases d.valid with hd | hd
    · omega
    · exact hd.2
  have hbyte : ∀ n, n < 256 → (UInt8.ofNat n).toNat = n := fun n hn => by simpa using hn
  unfold String.utf8EncodeChar
  generalize c.val.toNat = m at *
  generalize d.val.toNat = n at *
  -- all digits to one base, so that they can be compared
  have hm : m / 4096 = m / 64 / 64 ∧ m / 262144 = m / 64 / 64 / 64 := by omega
  have hn : n / 4096 = n / 64 / 64 ∧ n / 262144 = n / 64 / 64 / 64 := by omega
  dsimp only
  rw [hm.1, hm.2, hn.1, hn.2]
  split_ifs <;> simp (disch := omega) only [List.cons_append, List.nil_append, List.cons_lt_cons_iff,
    UInt8.lt_iff_toNat_lt, ← UInt8.toNat_inj, hbyte]
  all_goals
    clear hbyte hm hn h
    omega

/-- The order of texts is that of their bytes. -/
theorem utf8_lt {s t : String} (h : s < t) : utf8 s < utf8 t := by
  rw [String.lt_iff_toList_lt] at h
  rw [utf8_eq, utf8_eq]
  generalize s.toList = l at h
  generalize t.toList = k at h
  induction h with
  | @nil d k =>
    obtain ⟨b, bs, hd⟩ := List.exists_cons_of_ne_nil (String.utf8EncodeChar_ne_nil (c := d))
    rw [List.flatMap_nil, List.flatMap_cons, hd]
    exact List.nil_lt_cons _ _
  | cons _ ih =>
    rw [List.flatMap_cons, List.flatMap_cons]
    exact List.append_left_lt ih
  | rel h =>
    rw [List.flatMap_cons, List.flatMap_cons]
    exact utf8EncodeChar_lt h _ _

namespace Attrs

private theorem mem_iff (attrs : Attrs) (key : String) (value : Attr) :
    (key, value) ∈ attrs.entries ↔ attrs.get? key = some value := by
  obtain ⟨entries, ascending⟩ := attrs
  show (key, value) ∈ entries ↔ (entries.find? (·.1 = key)).map (·.2) = some value
  induction entries with
  | nil => simp
  | cons q rest ih =>
    obtain ⟨k, v⟩ := q
    obtain ⟨hk, hrest⟩ := List.pairwise_cons.mp ascending
    by_cases hkey : k = key
    · subst hkey
      have hnot : (k, value) ∉ rest := fun hmem => lt_irrefl k (hk (k, value) hmem)
      simp [hnot, eq_comm]
    · have hfind : ((k, v) :: rest).find? (·.1 = key) = rest.find? (·.1 = key) := by simp [hkey]
      rw [hfind, ← ih hrest, List.mem_cons, Prod.mk.injEq, or_iff_right fun heq => hkey heq.1.symm]

private theorem ext_get? {attrs others : Attrs} (same : ∀ key, attrs.get? key = others.get? key) :
    attrs = others := by
  have : Std.Irrefl fun p q : String × Attr => p.1 < q.1 := ⟨fun p => lt_irrefl p.1⟩
  have : Std.Antisymm fun p q : String × Attr => p.1 < q.1 :=
    ⟨fun p q hpq hqp => absurd (hpq.trans hqp) (lt_irrefl _)⟩
  refine Attrs.ext (List.Pairwise.eq_of_mem_iff attrs.ascending others.ascending fun p => ?_)
  rw [attrs.mem_iff, others.mem_iff, same]

end Attrs

/-- Where an operator stands in a tree: from the root down, the numbers of region, block and operator. -/
abbrev TreePath := List (Nat × Nat × Nat)

namespace Operator

mutual

/-- All heads of a tree with the paths to their operators, each operator before those in its regions. -/
def heads : Operator → List (TreePath × Head)
  | mk head regions => ([], head) :: headsRegions 0 regions
termination_by structural o => o

def headsRegions (i : Nat) : List Region → List (TreePath × Head)
  | [] => []
  | .mk blocks :: rest => headsBlocks i 0 blocks ++ headsRegions (i + 1) rest
termination_by structural rs => rs

def headsBlocks (i j : Nat) : List Block → List (TreePath × Head)
  | [] => []
  | .mk _ items :: rest => headsAll i j 0 items ++ headsBlocks i (j + 1) rest
termination_by structural bs => bs

def headsAll (i j k : Nat) : List Operator → List (TreePath × Head)
  | [] => []
  | op :: rest => (heads op).map (fun p => ((i, j, k) :: p.1, p.2)) ++ headsAll i j (k + 1) rest
termination_by structural os => os

end

mutual

/-- Changes every head, by the path to its operator. -/
def mapHeadsAt (f : TreePath → Head → Head) : Operator → Operator
  | mk head regions => mk (f [] head) (mapRegionsAt f 0 regions)
termination_by structural o => o

def mapRegionsAt (f : TreePath → Head → Head) (i : Nat) : List Region → List Region
  | [] => []
  | .mk blocks :: rest => .mk (mapBlocksAt f i 0 blocks) :: mapRegionsAt f (i + 1) rest
termination_by structural rs => rs

def mapBlocksAt (f : TreePath → Head → Head) (i j : Nat) : List Block → List Block
  | [] => []
  | .mk label items :: rest => .mk label (mapAllAt f i j 0 items) :: mapBlocksAt f i (j + 1) rest
termination_by structural bs => bs

def mapAllAt (f : TreePath → Head → Head) (i j k : Nat) : List Operator → List Operator
  | [] => []
  | op :: rest => mapHeadsAt (fun path => f ((i, j, k) :: path)) op :: mapAllAt f i j (k + 1) rest
termination_by structural os => os

end

mutual

theorem heads_mapHeadsAt (f : TreePath → Head → Head) : (op : Operator) →
    (op.mapHeadsAt f).heads = op.heads.map fun p => (p.1, f p.1 p.2)
  | mk head regions => by
    rw [mapHeadsAt, heads, heads, headsRegions_map f 0 regions]
    rfl

theorem headsRegions_map (f : TreePath → Head → Head) (i : Nat) : (regions : List Region) →
    headsRegions i (mapRegionsAt f i regions) = (headsRegions i regions).map fun p => (p.1, f p.1 p.2)
  | [] => rfl
  | .mk blocks :: rest => by
    rw [mapRegionsAt, headsRegions, headsRegions, headsBlocks_map f i 0 blocks,
      headsRegions_map f (i + 1) rest, List.map_append]

theorem headsBlocks_map (f : TreePath → Head → Head) (i j : Nat) : (blocks : List Block) →
    headsBlocks i j (mapBlocksAt f i j blocks) = (headsBlocks i j blocks).map fun p => (p.1, f p.1 p.2)
  | [] => rfl
  | .mk label items :: rest => by
    rw [mapBlocksAt, headsBlocks, headsBlocks, headsAll_map f i j 0 items, headsBlocks_map f i (j + 1) rest,
      List.map_append]

theorem headsAll_map (f : TreePath → Head → Head) (i j k : Nat) : (ops : List Operator) →
    headsAll i j k (mapAllAt f i j k ops) = (headsAll i j k ops).map fun p => (p.1, f p.1 p.2)
  | [] => rfl
  | op :: rest => by
    rw [mapAllAt, headsAll, headsAll, heads_mapHeadsAt _ op, headsAll_map f i j (k + 1) rest, List.map_append,
      List.map_map, List.map_map]
    rfl

end

mutual

theorem mapHeadsAt_mapHeadsAt (f g : TreePath → Head → Head) : (op : Operator) →
    (op.mapHeadsAt f).mapHeadsAt g = op.mapHeadsAt fun path h => g path (f path h)
  | mk head regions => by
    rw [mapHeadsAt, mapHeadsAt, mapHeadsAt, mapRegionsAt_mapRegionsAt f g 0 regions]

theorem mapRegionsAt_mapRegionsAt (f g : TreePath → Head → Head) (i : Nat) : (regions : List Region) →
    mapRegionsAt g i (mapRegionsAt f i regions) = mapRegionsAt (fun path h => g path (f path h)) i regions
  | [] => rfl
  | .mk blocks :: rest => by
    rw [mapRegionsAt, mapRegionsAt, mapRegionsAt, mapBlocksAt_mapBlocksAt f g i 0 blocks,
      mapRegionsAt_mapRegionsAt f g (i + 1) rest]

theorem mapBlocksAt_mapBlocksAt (f g : TreePath → Head → Head) (i j : Nat) : (blocks : List Block) →
    mapBlocksAt g i j (mapBlocksAt f i j blocks) = mapBlocksAt (fun path h => g path (f path h)) i j blocks
  | [] => rfl
  | .mk label items :: rest => by
    rw [mapBlocksAt, mapBlocksAt, mapBlocksAt, mapAllAt_mapAllAt f g i j 0 items,
      mapBlocksAt_mapBlocksAt f g i (j + 1) rest]

theorem mapAllAt_mapAllAt (f g : TreePath → Head → Head) (i j k : Nat) : (ops : List Operator) →
    mapAllAt g i j k (mapAllAt f i j k ops) = mapAllAt (fun path h => g path (f path h)) i j k ops
  | [] => rfl
  | op :: rest => by
    rw [mapAllAt, mapAllAt, mapAllAt, mapHeadsAt_mapHeadsAt _ _ op, mapAllAt_mapAllAt f g i j (k + 1) rest]

end

mutual

theorem mapHeadsAt_id : (op : Operator) → op.mapHeadsAt (fun _ h => h) = op
  | mk head regions => by rw [mapHeadsAt, mapRegionsAt_id 0 regions]

theorem mapRegionsAt_id (i : Nat) : (regions : List Region) → mapRegionsAt (fun _ h => h) i regions = regions
  | [] => rfl
  | .mk blocks :: rest => by rw [mapRegionsAt, mapBlocksAt_id i 0 blocks, mapRegionsAt_id (i + 1) rest]

theorem mapBlocksAt_id (i j : Nat) : (blocks : List Block) → mapBlocksAt (fun _ h => h) i j blocks = blocks
  | [] => rfl
  | .mk label items :: rest => by rw [mapBlocksAt, mapAllAt_id i j 0 items, mapBlocksAt_id i (j + 1) rest]

theorem mapAllAt_id (i j k : Nat) : (ops : List Operator) → mapAllAt (fun _ h => h) i j k ops = ops
  | [] => rfl
  | op :: rest => by rw [mapAllAt, mapHeadsAt_id op, mapAllAt_id i j (k + 1) rest]

end

mutual

/-- A change of heads hangs only on what it does at the paths of the tree. -/
theorem mapHeadsAt_congr {f g : TreePath → Head → Head} : (op : Operator) →
    (∀ p ∈ op.heads, f p.1 p.2 = g p.1 p.2) → op.mapHeadsAt f = op.mapHeadsAt g
  | mk head regions, same => by
    rw [heads, List.forall_mem_cons] at same
    rw [mapHeadsAt, mapHeadsAt, same.1, mapRegionsAt_congr 0 regions same.2]

theorem mapRegionsAt_congr {f g : TreePath → Head → Head} (i : Nat) : (regions : List Region) →
    (∀ p ∈ headsRegions i regions, f p.1 p.2 = g p.1 p.2) →
      mapRegionsAt f i regions = mapRegionsAt g i regions
  | [], _ => rfl
  | .mk blocks :: rest, same => by
    rw [headsRegions, List.forall_mem_append] at same
    rw [mapRegionsAt, mapRegionsAt, mapBlocksAt_congr i 0 blocks same.1,
      mapRegionsAt_congr (i + 1) rest same.2]

theorem mapBlocksAt_congr {f g : TreePath → Head → Head} (i j : Nat) : (blocks : List Block) →
    (∀ p ∈ headsBlocks i j blocks, f p.1 p.2 = g p.1 p.2) →
      mapBlocksAt f i j blocks = mapBlocksAt g i j blocks
  | [], _ => rfl
  | .mk label items :: rest, same => by
    rw [headsBlocks, List.forall_mem_append] at same
    rw [mapBlocksAt, mapBlocksAt, mapAllAt_congr i j 0 items same.1, mapBlocksAt_congr i (j + 1) rest same.2]

theorem mapAllAt_congr {f g : TreePath → Head → Head} (i j k : Nat) : (ops : List Operator) →
    (∀ p ∈ headsAll i j k ops, f p.1 p.2 = g p.1 p.2) → mapAllAt f i j k ops = mapAllAt g i j k ops
  | [], _ => rfl
  | op :: rest, same => by
    rw [headsAll, List.forall_mem_append, List.forall_mem_map] at same
    have hop : op.mapHeadsAt (fun path => f ((i, j, k) :: path)) =
        op.mapHeadsAt fun path => g ((i, j, k) :: path) := mapHeadsAt_congr op same.1
    rw [mapAllAt, mapAllAt, hop, mapAllAt_congr i j (k + 1) rest same.2]

end

-- No two operators have one path: paths start with different numbers as soon as they part.
private theorem headsAll_path {i j : Nat} : ∀ {k : Nat} {ops : List Operator} {p : TreePath × Head},
    p ∈ headsAll i j k ops → ∃ k' rest, p.1 = (i, j, k') :: rest ∧ k ≤ k'
  | _, [], _, h => by simp [headsAll] at h
  | k, op :: ops, p, h => by
    rw [headsAll, List.mem_append, List.mem_map] at h
    rcases h with ⟨q, _, rfl⟩ | h
    · exact ⟨k, q.1, rfl, le_rfl⟩
    · obtain ⟨k', rest, hp, hk⟩ := headsAll_path h
      exact ⟨k', rest, hp, by omega⟩

private theorem headsBlocks_path {i : Nat} : ∀ {j : Nat} {blocks : List Block} {p : TreePath × Head},
    p ∈ headsBlocks i j blocks → ∃ j' k rest, p.1 = (i, j', k) :: rest ∧ j ≤ j'
  | _, [], _, h => by simp [headsBlocks] at h
  | j, .mk _ items :: blocks, p, h => by
    rw [headsBlocks, List.mem_append] at h
    rcases h with h | h
    · obtain ⟨k, rest, hp, _⟩ := headsAll_path h
      exact ⟨j, k, rest, hp, le_rfl⟩
    · obtain ⟨j', k, rest, hp, hj⟩ := headsBlocks_path h
      exact ⟨j', k, rest, hp, by omega⟩

private theorem headsRegions_path : ∀ {i : Nat} {regions : List Region} {p : TreePath × Head},
    p ∈ headsRegions i regions → ∃ i' j k rest, p.1 = (i', j, k) :: rest ∧ i ≤ i'
  | _, [], _, h => by simp [headsRegions] at h
  | i, .mk blocks :: regions, p, h => by
    rw [headsRegions, List.mem_append] at h
    rcases h with h | h
    · obtain ⟨j, k, rest, hp, _⟩ := headsBlocks_path h
      exact ⟨i, j, k, rest, hp, le_rfl⟩
    · obtain ⟨i', j, k, rest, hp, hi⟩ := headsRegions_path h
      exact ⟨i', j, k, rest, hp, by omega⟩

private theorem nodup_paths_append {l r : List (TreePath × Head)} (hl : (l.map Prod.fst).Nodup)
    (hr : (r.map Prod.fst).Nodup) (apart : ∀ p ∈ l, ∀ q ∈ r, p.1 ≠ q.1) :
    ((l ++ r).map Prod.fst).Nodup := by
  rw [List.map_append]
  refine hl.append hr ?_
  intro path hpath hpath'
  obtain ⟨p, hp, hpeq⟩ := List.mem_map.mp hpath
  obtain ⟨q, hq, hqeq⟩ := List.mem_map.mp hpath'
  exact apart p hp q hq (hpeq.trans hqeq.symm)

mutual

theorem nodup_heads : (op : Operator) → (op.heads.map Prod.fst).Nodup
  | mk head regions => by
    rw [heads, List.map_cons, List.nodup_cons]
    refine ⟨?_, nodup_headsRegions 0 regions⟩
    intro h
    obtain ⟨p, hp, hroot⟩ := List.mem_map.mp h
    obtain ⟨i, j, k, rest, hpath, _⟩ := headsRegions_path hp
    simp [hpath] at hroot

theorem nodup_headsRegions (i : Nat) : (regions : List Region) → ((headsRegions i regions).map Prod.fst).Nodup
  | [] => List.nodup_nil
  | .mk blocks :: rest => by
    rw [headsRegions]
    refine nodup_paths_append (nodup_headsBlocks i 0 blocks) (nodup_headsRegions (i + 1) rest) ?_
    intro p hp q hq heq
    obtain ⟨j, k, t, hp, _⟩ := headsBlocks_path hp
    obtain ⟨i', j', k', t', hq, hi⟩ := headsRegions_path hq
    rw [hp, hq] at heq
    simp only [List.cons.injEq, Prod.mk.injEq] at heq
    omega

theorem nodup_headsBlocks (i j : Nat) : (blocks : List Block) → ((headsBlocks i j blocks).map Prod.fst).Nodup
  | [] => List.nodup_nil
  | .mk _ items :: rest => by
    rw [headsBlocks]
    refine nodup_paths_append (nodup_headsAll i j 0 items) (nodup_headsBlocks i (j + 1) rest) ?_
    intro p hp q hq heq
    obtain ⟨k, t, hp, _⟩ := headsAll_path hp
    obtain ⟨j', k', t', hq, hj⟩ := headsBlocks_path hq
    rw [hp, hq] at heq
    simp only [List.cons.injEq, Prod.mk.injEq] at heq
    omega

theorem nodup_headsAll (i j k : Nat) : (ops : List Operator) → ((headsAll i j k ops).map Prod.fst).Nodup
  | [] => List.nodup_nil
  | op :: rest => by
    rw [headsAll]
    refine nodup_paths_append ?_ (nodup_headsAll i j (k + 1) rest) ?_
    · have hinj : ((op.heads.map Prod.fst).map (List.cons (i, j, k))).Nodup :=
        (nodup_heads op).map (List.cons_injective)
      rw [List.map_map] at hinj ⊢
      exact hinj
    · intro p hp q hq heq
      obtain ⟨p', _, rfl⟩ := List.mem_map.mp hp
      obtain ⟨k', t', hq, hk⟩ := headsAll_path hq
      rw [hq] at heq
      simp only [List.cons.injEq, Prod.mk.injEq] at heq
      omega

end

end Operator

/-- A call that sets an attribute of one operator of a tree. -/
structure AttrCall where
  path : TreePath
  key : String
  value : Attr

namespace AttrCall

def applyAt (c : AttrCall) (path : TreePath) (h : Head) : Head :=
  if c.path = path then h.withAttr c.key c.value else h

def apply (c : AttrCall) (op : Operator) : Operator := op.mapHeadsAt c.applyAt

/-- The last value that is set for a key of the operator at a path, or else the one that its head has. -/
def lastValue (calls : List AttrCall) (p : TreePath × Head) (key : String) : Option Attr :=
  ((calls.reverse.find? fun c => c.path = p.1 ∧ c.key = key).map (·.value)).or (p.2.attrs.get? key)

private def attrsAfter (calls : List AttrCall) (p : TreePath × Head) : Attrs :=
  (calls.foldl (fun h c => c.applyAt p.1 h) p.2).attrs

variable (calls : List AttrCall) (p : TreePath × Head)

private theorem lastValue_append_singleton (c : AttrCall) (key : String) :
    lastValue (calls ++ [c]) p key =
      if c.path = p.1 ∧ c.key = key then some c.value else lastValue calls p key := by
  rw [lastValue, List.reverse_append, List.reverse_singleton, List.singleton_append, List.find?_cons]
  split_ifs with h
  · simp [h]
  · simp [h, lastValue]

private theorem get?_attrsAfter (key : String) :
    (attrsAfter calls p).get? key = lastValue calls p key := by
  induction calls using List.reverseRecOn with
  | nil => rfl
  | append_singleton calls c ih =>
    rw [lastValue_append_singleton, ← ih, attrsAfter, List.foldl_append, List.foldl_cons, List.foldl_nil]
    by_cases hpath : c.path = p.1
    · rw [applyAt, if_pos hpath, Head.withAttr_attrs]
      by_cases hkey : c.key = key
      · rw [if_pos ⟨hpath, hkey⟩, ← hkey, Attrs.get?_set_self]
      · rw [if_neg fun h => hkey h.2, Attrs.get?_set_of_ne fun h => hkey h.symm]
        rfl
    · rw [applyAt, if_neg hpath, if_neg fun h => hpath h.1]
      rfl

private theorem foldl_applyAt :
    calls.foldl (fun h c => c.applyAt p.1 h) p.2 = { p.2 with attrs := attrsAfter calls p } := by
  rw [attrsAfter]
  induction calls using List.reverseRecOn with
  | nil => rfl
  | append_singleton calls c ih =>
    rw [List.foldl_append, List.foldl_cons, List.foldl_nil, ih, applyAt]
    split_ifs <;> rfl

end AttrCall

/-- The tree after calls that set attributes of its operators, one after the other. -/
def Operator.setAttrs (op : Operator) (calls : List AttrCall) : Operator :=
  calls.foldl (fun op c => c.apply op) op

private theorem Operator.setAttrs_eq (op : Operator) (calls : List AttrCall) :
    op.setAttrs calls = op.mapHeadsAt fun path h => calls.foldl (fun h c => c.applyAt path h) h := by
  induction calls using List.reverseRecOn with
  | nil => exact (mapHeadsAt_id op).symm
  | append_singleton calls c ih =>
    rw [setAttrs, List.foldl_append, List.foldl_cons, List.foldl_nil]
    rw [setAttrs] at ih
    rw [ih, AttrCall.apply, mapHeadsAt_mapHeadsAt]
    simp only [List.foldl_append, List.foldl_cons, List.foldl_nil]

/-- What attributes add to a text: nothing when there are none, else their list between braces. -/
def bracedList (entries : List (String × Attr)) : String :=
  if entries.isEmpty then ""
  else " \x7b" ++ ", ".intercalate (entries.map fun a => a.1 ++ "=" ++ a.2.render) ++ "\x7d"

private theorem Head.closing_eq_append (h : Head) (attrs : Attrs) : ({ h with attrs } : Head).closing =
    bracedList attrs.entries ++ ({ h with attrs := ∅ } : Head).closing := by
  have hresult : ({ h with attrs } : Head).resultText = ({ h with attrs := ∅ } : Head).resultText := rfl
  have hempty : (∅ : Attrs).isEmpty = true := rfl
  rw [Head.closing, Head.closing, hresult, bracedList, hempty, Attrs.isEmpty]
  by_cases hentries : attrs.entries.isEmpty
  · simp [hentries]
  · refine String.toList_injective ?_
    simp [hentries, Attrs.render, Attrs.map]

/-- A text that hangs on the attributes of operators only in that it has a gap for each of them, where their
list stands. -/
def Framed (heads : List (TreePath × Head)) (text : (TreePath → Head → Attrs) → String) : Prop :=
  ∃ (pieces : List (String × TreePath × Head)) (rest : String), (pieces.map Prod.snd).Perm heads ∧
    ∀ attrs, text attrs =
      String.join (pieces.map fun q => q.1 ++ bracedList (attrs q.2.1 q.2.2).entries) ++ rest

namespace Framed

variable {heads others : List (TreePath × Head)} {text text' : (TreePath → Head → Attrs) → String}

private theorem const (s : String) : Framed [] fun _ => s :=
  ⟨[], s, .refl _, fun _ => by simp⟩

private theorem gap (p : TreePath × Head) (s : String) :
    Framed [p] fun attrs => bracedList (attrs p.1 p.2).entries ++ s :=
  ⟨[("", p)], s, .refl _, fun _ => by simp⟩

theorem append (h : Framed heads text) (h' : Framed others text') :
    Framed (heads ++ others) fun attrs => text attrs ++ text' attrs := by
  obtain ⟨pieces, rest, hperm, htext⟩ := h
  obtain ⟨pieces', rest', hperm', htext'⟩ := h'
  cases pieces' with
  | nil =>
    refine ⟨pieces, rest ++ rest', ?_, fun attrs => ?_⟩
    · have hothers : others = [] := hperm'.symm.eq_nil
      simpa [hothers] using hperm
    · simp [htext attrs, htext' attrs, String.append_assoc]
  | cons q pieces' =>
    -- what ends the first text is put before the next gap
    refine ⟨pieces ++ (rest ++ q.1, q.2) :: pieces', rest', ?_, fun attrs => ?_⟩
    · rw [List.map_append]
      exact hperm.append hperm'
    · simp [htext attrs, htext' attrs, String.append_assoc]

theorem congr (h : Framed heads text) (same : ∀ attrs, text' attrs = text attrs) : Framed heads text' := by
  obtain rfl : text' = text := funext same
  exact h

private theorem perm (h : Framed heads text) (hperm : heads.Perm others) : Framed others text := by
  obtain ⟨pieces, rest, hpieces, htext⟩ := h
  exact ⟨pieces, rest, hpieces.trans hperm, htext⟩

private theorem below (h : Framed heads text) (step : Nat × Nat × Nat) :
    Framed (heads.map fun p => (step :: p.1, p.2)) fun attrs => text fun path => attrs (step :: path) := by
  obtain ⟨pieces, rest, hperm, htext⟩ := h
  refine ⟨pieces.map fun q => (q.1, step :: q.2.1, q.2.2), rest, ?_, fun attrs => ?_⟩
  · rw [List.map_map]
    have hmap := hperm.map fun p : TreePath × Head => (step :: p.1, p.2)
    rwa [List.map_map] at hmap
  · show text (fun path => attrs (step :: path)) = _
    rw [htext, List.map_map]
    rfl

end Framed

namespace Operator

def reattribute (attrs : TreePath → Head → Attrs) (path : TreePath) (h : Head) : Head :=
  { h with attrs := attrs path h }

def bare (op : Operator) : Operator := op.mapHeadsAt (reattribute fun _ _ => ∅)

mutual

theorem framed_renderAt (indent : String) : (op : Operator) →
    Framed op.heads fun attrs => renderAt indent (op.mapHeadsAt (reattribute attrs))
  | mk head regions => by
    have hopening := Framed.const (indent ++ head.opening)
    have hregions := framed_renderRegions indent 0 regions
    have hclosing := Framed.gap ([], head) ({ head with attrs := ∅ } : Head).closing
    have henclosed : Framed (headsRegions 0 regions) fun attrs =>
        enclosed (renderRegions indent (mapRegionsAt (reattribute attrs) 0 regions)) := by
      cases regions with
      | nil => exact Framed.const ""
      | cons r rest =>
        obtain ⟨blocks⟩ := r
        have hframed := ((Framed.const " (").append hregions).append (Framed.const ")")
        exact hframed.perm (.of_eq (List.append_nil _))
    refine ((hopening.append henclosed).append hclosing).perm (List.perm_append_singleton _ _) |>.congr ?_
    intro attrs
    rw [mapHeadsAt, renderAt, reattribute, Head.closing_eq_append]
    rfl

theorem framed_renderRegions (indent : String) (i : Nat) : (regions : List Region) →
    Framed (headsRegions i regions) fun attrs =>
      ", ".intercalate (renderRegions indent (mapRegionsAt (reattribute attrs) i regions))
  | [] => Framed.const ""
  | [.mk blocks] => by
    have hblocks := framed_renderBlocks indent i 0 blocks
    have hregion := ((Framed.const "\x7b\n").append hblocks).append (Framed.const (indent ++ "\x7d"))
    refine (hregion.perm (by simp [headsRegions])).congr fun attrs => ?_
    simp [mapRegionsAt, renderRegions, String.append_assoc]
  | .mk blocks :: r :: rest => by
    have hblocks := framed_renderBlocks indent i 0 blocks
    have hrest := framed_renderRegions indent (i + 1) (r :: rest)
    have hregion := ((Framed.const "\x7b\n").append hblocks).append (Framed.const (indent ++ "\x7d, "))
    refine ((hregion.append hrest).perm (by simp [headsRegions])).congr fun attrs => ?_
    obtain ⟨blocks'⟩ := r
    simp only [mapRegionsAt, renderRegions, String.intercalate_cons_cons]
    refine String.toList_injective ?_
    simp

theorem framed_renderBlocks (indent : String) (i j : Nat) : (blocks : List Block) →
    Framed (headsBlocks i j blocks) fun attrs =>
      renderBlocks indent (mapBlocksAt (reattribute attrs) i j blocks)
  | [] => Framed.const ""
  | .mk label items :: rest => by
    have hlabel := Framed.const (match label with
      | some l => indent ++ l.render ++ "\n"
      | none => "")
    have hitems := framed_renderItems (indent ++ step) i j 0 items
    have hrest := framed_renderBlocks indent i (j + 1) rest
    exact (hlabel.append hitems).append hrest

theorem framed_renderItems (indent : String) (i j k : Nat) : (ops : List Operator) →
    Framed (headsAll i j k ops) fun attrs => renderItems indent (mapAllAt (reattribute attrs) i j k ops)
  | [] => Framed.const ""
  | op :: rest => by
    have hop := (framed_renderAt indent op).below (i, j, k)
    have hrest := framed_renderItems indent i j (k + 1) rest
    refine (((hop.append (Framed.const "\n")).append hrest).perm ?_).congr fun attrs => ?_
    · rw [List.append_nil, headsAll]
    · rw [mapAllAt, renderItems]
      rfl

end

end Operator

/-- The attributes of an operator as calls leave them: every key that has a value once, with its last value,
in the order of the bytes of the keys. -/
structure AttrCall.Listed (calls : List AttrCall) (p : TreePath × Head) (entries : List (String × Attr)) :
    Prop where
  ascending : entries.Pairwise fun a b => utf8 a.1 < utf8 b.1
  mem_iff : ∀ key value, (key, value) ∈ entries ↔ lastValue calls p key = some value

private theorem AttrCall.listed_attrsAfter (calls : List AttrCall) (p : TreePath × Head) :
    Listed calls p (attrsAfter calls p).entries where
  ascending := (attrsAfter calls p).ascending.imp utf8_lt
  mem_iff key value := by rw [Attrs.mem_iff, get?_attrsAfter]

private theorem Operator.setAttrs_eq_reattribute (op : Operator) (calls : List AttrCall) :
    op.setAttrs calls =
    op.mapHeadsAt (reattribute fun path h => AttrCall.attrsAfter calls (path, h)) := by
  rw [op.setAttrs_eq]
  exact mapHeadsAt_congr op fun p _ => AttrCall.foldl_applyAt calls p

/-- The text of a tree hangs on the last values of its attributes alone, whichever calls have set them and
in whichever order. It is the text without attributes with a list put in for each operator, and each list
has the keys once, by their bytes. -/
theorem render_setAttrs_eq (op : Operator) :
    (∀ calls calls' : List AttrCall,
      (∀ p ∈ op.heads, ∀ key, AttrCall.lastValue calls p key = AttrCall.lastValue calls' p key) →
        (op.setAttrs calls).render = (op.setAttrs calls').render) ∧
      (op.heads.map Prod.fst).Nodup ∧
      ∃ (pieces : List (String × TreePath × Head)) (rest : String), (pieces.map Prod.snd).Perm op.heads ∧
        op.bare.render = String.join (pieces.map Prod.fst) ++ rest ∧
        ∀ calls : List AttrCall, ∃ entries : TreePath × Head → List (String × Attr),
          (∀ p ∈ op.heads, AttrCall.Listed calls p (entries p)) ∧
          (op.setAttrs calls).render =
            String.join (pieces.map fun q => q.1 ++ bracedList (entries q.2)) ++ rest := by
  refine ⟨fun calls calls' same => ?_, op.nodup_heads, ?_⟩
  · have hop : op.setAttrs calls = op.setAttrs calls' := by
      rw [op.setAttrs_eq_reattribute, op.setAttrs_eq_reattribute]
      refine Operator.mapHeadsAt_congr op fun p hp => ?_
      have hattrs : AttrCall.attrsAfter calls p = AttrCall.attrsAfter calls' p := by
        refine Attrs.ext_get? fun key => ?_
        rw [AttrCall.get?_attrsAfter, AttrCall.get?_attrsAfter, same p hp key]
      rw [Operator.reattribute, Operator.reattribute, hattrs]
    rw [hop]
  · obtain ⟨pieces, rest, hperm, htext⟩ := Operator.framed_renderAt "" op
    refine ⟨pieces, rest, hperm, ?_, fun calls => ?_⟩
    · have hbare : op.bare.render = _ := htext fun _ _ => ∅
      simpa [bracedList] using hbare
    · refine ⟨fun p => (AttrCall.attrsAfter calls p).entries,
        fun p _ => AttrCall.listed_attrsAfter calls p, ?_⟩
      rw [op.setAttrs_eq_reattribute]
      exact htext _

def plainDefinition : Operator :=
  .mk ((Head.py "def").withAttr "name" (.text "f")) [.single none [.mk (Head.py "pass") []]]

def tangledCalls : List AttrCall :=
  [⟨[], "span", .int 3⟩, ⟨[(0, 0, 0)], "line", .int 1⟩, ⟨[], "name", .text "g"⟩, ⟨[], "Async", .bool true⟩,
    ⟨[], "name", .text "f"⟩, ⟨[(0, 0, 0)], "line", .int 2⟩]

def plainCalls : List AttrCall :=
  [⟨[], "Async", .bool true⟩, ⟨[(0, 0, 0)], "line", .int 2⟩, ⟨[], "span", .int 3⟩]

theorem render_tangledCalls :
    (plainDefinition.setAttrs tangledCalls).render = (plainDefinition.setAttrs plainCalls).render ∧
      (plainDefinition.setAttrs tangledCalls).render =
        "\"py.def\"() (\x7b\n    \"py.pass\"() \x7bline=2\x7d : () -> ()\n\x7d) " ++
          "\x7bAsync=true, name=\"f\", span=3\x7d : () -> ()" := by
  have hheads : plainDefinition.heads =
      [([], (Head.py "def").withAttr "name" (.text "f")), ([(0, 0, 0)], Head.py "pass")] := rfl
  refine ⟨(render_setAttrs_eq plainDefinition).1 _ _ ?_, by decide +kernel⟩
  rw [hheads, List.forall_mem_cons, List.forall_mem_singleton]
  refine ⟨fun key => ?_, fun key => ?_⟩
  · by_cases hspan : "span" = key
    · subst hspan
      rfl
    by_cases hname : "name" = key
    · subst hname
      rfl
    by_cases hasync : "Async" = key
    · subst hasync
      rfl
    simp [AttrCall.lastValue, tangledCalls, plainCalls, hspan, hname, hasync]
  · by_cases hline : "line" = key
    · subst hline
      rfl
    simp [AttrCall.lastValue, tangledCalls, plainCalls, hline]

end RegionIR
