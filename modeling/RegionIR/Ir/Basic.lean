import RegionIR.Binary64
/-!
# The intermediate form

Programs in the intermediate form are trees of operators. An operator has a head, which holds all that
stands on its own line, and regions; a region is a list of blocks, and a block a list of operators
under an optional label.
-/
namespace RegionIR

/-- The name of a value, sigil included. -/
structure ValueId where
  text : String
  deriving DecidableEq, Inhabited

namespace ValueId

/-- The first definition of a variable, or a block parameter. -/
def named (var : String) : ValueId := ⟨"%" ++ var⟩

/-- A later definition or a load of a variable. -/
def versioned (var : String) (n : Nat) : ValueId := ⟨"%" ++ var ++ "." ++ toString n⟩

/-- The result of an expression. -/
def numbered (n : Nat) : ValueId := ⟨"%" ++ toString n⟩

end ValueId

/-- The type tag of a value. -/
inductive Ty where
  /-- No value. -/
  | unit
  | named (name : String)
  /-- A constructor applied to arguments. -/
  | generic (ctor : String) (args : List Ty)
  | unknown
  deriving Inhabited

def Ty.isUnknown : Ty → Bool
  | unknown => true
  | _ => false

/-- The value of an attribute. -/
inductive Attr where
  | text (s : String)
  | int (n : Int)
  /-- An integer that does not fit 64 signed bits, as its digits. -/
  | bigInt (digits : String)
  | float (x : Binary64)
  | bool (b : Bool)
  | unit
  | list (items : List Attr)
  | functionType (params : List Ty) (result : Ty)
  deriving Inhabited

/-- Attributes by their keys, listed in the order of the keys. -/
@[ext]
structure Attrs where
  entries : List (String × Attr)
  ascending : entries.Pairwise (·.1 < ·.1)

namespace Attrs

instance : EmptyCollection Attrs := ⟨[], .nil⟩

/-- Puts an entry at its place among others, over one that has the same key. -/
def place (key : String) (value : Attr) : List (String × Attr) → List (String × Attr)
  | [] => [(key, value)]
  | (k, v) :: rest =>
    if key < k then (key, value) :: (k, v) :: rest
    else if key = k then (key, value) :: rest
    else (k, v) :: place key value rest

theorem mem_place {key : String} {value : Attr} {entries : List (String × Attr)} {p : String × Attr}
    (h : p ∈ place key value entries) : p = (key, value) ∨ p ∈ entries := by
  induction entries with
  | nil => simpa [place] using h
  | cons q rest ih =>
    obtain ⟨k, v⟩ := q
    rw [place] at h
    split at h
    · simpa using h
    · split at h
      · exact (List.mem_cons.mp h).imp_right (List.mem_cons_of_mem _)
      · rcases List.mem_cons.mp h with rfl | h
        · exact .inr List.mem_cons_self
        · exact (ih h).imp_right (List.mem_cons_of_mem _)

theorem ascending_place {entries : List (String × Attr)} (h : entries.Pairwise (·.1 < ·.1)) (key : String)
    (value : Attr) : (place key value entries).Pairwise (·.1 < ·.1) := by
  induction entries with
  | nil => exact List.pairwise_singleton _ _
  | cons q rest ih =>
    obtain ⟨k, v⟩ := q
    obtain ⟨hk, hrest⟩ := List.pairwise_cons.mp h
    rw [place]
    split
    · rename_i hlt
      refine List.pairwise_cons.mpr ⟨fun p hp => ?_, h⟩
      rcases List.mem_cons.mp hp with rfl | hp
      · exact hlt
      · exact String.lt_trans hlt (hk p hp)
    · split
      · rename_i heq
        subst heq
        exact List.pairwise_cons.mpr ⟨hk, hrest⟩
      · rename_i hlt hne
        refine List.pairwise_cons.mpr ⟨fun p hp => ?_, ih hrest⟩
        rcases mem_place hp with rfl | hp
        · exact Std.lt_of_le_of_ne (String.not_lt.mp hlt) (Ne.symm hne)
        · exact hk p hp

theorem find?_place_self (key : String) (value : Attr) (entries : List (String × Attr)) :
    (place key value entries).find? (·.1 = key) = some (key, value) := by
  induction entries with
  | nil => simp [place]
  | cons p rest ih =>
    obtain ⟨k, v⟩ := p
    simp only [place]
    split
    · simp
    · split
      · simp
      · rename_i _ hne
        have hk : ¬ k = key := fun h => hne h.symm
        simpa [hk] using ih

theorem find?_place_of_ne {key other : String} (h : other ≠ key) (value : Attr)
    (entries : List (String × Attr)) :
    (place key value entries).find? (·.1 = other) = entries.find? (·.1 = other) := by
  have hk : ¬ key = other := fun h' => h h'.symm
  induction entries with
  | nil => simp [place, hk]
  | cons p rest ih =>
    obtain ⟨k, v⟩ := p
    simp only [place]
    split
    · simp [hk]
    · split
      · rename_i _ heq
        subst heq
        simp [hk]
      · by_cases hko : k = other
        · simp [hko]
        · simpa [hko] using ih

def set (key : String) (value : Attr) (attrs : Attrs) : Attrs :=
  ⟨place key value attrs.entries, ascending_place attrs.ascending key value⟩

def get? (key : String) (attrs : Attrs) : Option Attr :=
  (attrs.entries.find? (·.1 = key)).map (·.2)

def isEmpty (attrs : Attrs) : Bool := attrs.entries.isEmpty

/-- What a function makes of the entries, in the order of the keys. -/
def map {α : Type} (f : String × Attr → α) (attrs : Attrs) : List α := attrs.entries.map f

@[simp] theorem entries_empty : (∅ : Attrs).entries = [] := rfl

@[simp] theorem entries_set (key : String) (value : Attr) (attrs : Attrs) :
    (attrs.set key value).entries = place key value attrs.entries := rfl

@[simp] theorem get?_empty (key : String) : (∅ : Attrs).get? key = none := rfl

@[simp] theorem get?_set_self (key : String) (value : Attr) (attrs : Attrs) :
    (attrs.set key value).get? key = some value := by
  rw [get?, entries_set, find?_place_self]
  rfl

theorem get?_set_of_ne {key other : String} (h : other ≠ key) (value : Attr) (attrs : Attrs) :
    (attrs.set key value).get? other = attrs.get? other := by
  rw [get?, entries_set, find?_place_of_ne h]
  rfl

end Attrs

/-- The namespace an opcode belongs to. -/
inductive Dialect where
  | builtin
  | py
  deriving DecidableEq

def Dialect.text : Dialect → String
  | builtin => "builtin"
  | py => "py"

/-- The label of a block; the parameters of a function's entry block are its formals. -/
structure Label where
  name : String
  params : List (ValueId × Ty)

/-- What stands on an operator's own line. Names and types of results are parallel lists, and so are
those of arguments. -/
structure Head where
  dialect : Dialect
  name : String
  results : List ValueId := []
  resultTypes : List Ty := []
  args : List ValueId := []
  argTypes : List Ty := []
  attrs : Attrs := ∅

namespace Head

def py (name : String) : Head := { dialect := .py, name }

def builtin (name : String) : Head := { dialect := .builtin, name }

/-- Dialect and name, as they are printed. -/
def opcode (h : Head) : String := h.dialect.text ++ "." ++ h.name

/-- Appends an argument. -/
def withArg (h : Head) (value : ValueId) (ty : Ty) : Head :=
  { h with args := h.args ++ [value], argTypes := h.argTypes ++ [ty] }

/-- Appends several arguments. -/
def withArgs (h : Head) (operands : List (ValueId × Ty)) : Head :=
  { h with args := h.args ++ operands.map Prod.fst, argTypes := h.argTypes ++ operands.map Prod.snd }

/-- Makes a value the only result. -/
def withResult (h : Head) (value : ValueId) (ty : Ty) : Head :=
  { h with results := [value], resultTypes := [ty] }

def withAttr (h : Head) (key : String) (value : Attr) : Head :=
  { h with attrs := h.attrs.set key value }

/-- The first result with its type, if it has both. -/
def result? (h : Head) : Option (ValueId × Ty) :=
  match h.results, h.resultTypes with
  | v :: _, t :: _ => some (v, t)
  | _, _ => none

section Fields

variable (h : Head) (name key : String) (value : ValueId) (ty : Ty) (attr : Attr)
  (operands : List (ValueId × Ty))

@[simp] theorem py_dialect : (py name).dialect = .py := rfl
@[simp] theorem py_name : (py name).name = name := rfl
@[simp] theorem py_results : (py name).results = [] := rfl
@[simp] theorem py_args : (py name).args = [] := rfl
@[simp] theorem py_attrs : (py name).attrs = ∅ := rfl
@[simp] theorem builtin_dialect : (builtin name).dialect = .builtin := rfl
@[simp] theorem builtin_name : (builtin name).name = name := rfl
@[simp] theorem builtin_results : (builtin name).results = [] := rfl
@[simp] theorem builtin_args : (builtin name).args = [] := rfl
@[simp] theorem builtin_attrs : (builtin name).attrs = ∅ := rfl

@[simp] theorem withArg_dialect : (h.withArg value ty).dialect = h.dialect := rfl
@[simp] theorem withArg_name : (h.withArg value ty).name = h.name := rfl
@[simp] theorem withArg_results : (h.withArg value ty).results = h.results := rfl
@[simp] theorem withArg_args : (h.withArg value ty).args = h.args ++ [value] := rfl
@[simp] theorem withArg_attrs : (h.withArg value ty).attrs = h.attrs := rfl

@[simp] theorem withArgs_dialect : (h.withArgs operands).dialect = h.dialect := rfl
@[simp] theorem withArgs_name : (h.withArgs operands).name = h.name := rfl
@[simp] theorem withArgs_results : (h.withArgs operands).results = h.results := rfl
@[simp] theorem withArgs_args : (h.withArgs operands).args = h.args ++ operands.map Prod.fst := rfl
@[simp] theorem withArgs_attrs : (h.withArgs operands).attrs = h.attrs := rfl

@[simp] theorem withResult_dialect : (h.withResult value ty).dialect = h.dialect := rfl
@[simp] theorem withResult_name : (h.withResult value ty).name = h.name := rfl
@[simp] theorem withResult_results : (h.withResult value ty).results = [value] := rfl
@[simp] theorem withResult_args : (h.withResult value ty).args = h.args := rfl
@[simp] theorem withResult_attrs : (h.withResult value ty).attrs = h.attrs := rfl

@[simp] theorem withAttr_dialect : (h.withAttr key attr).dialect = h.dialect := rfl
@[simp] theorem withAttr_name : (h.withAttr key attr).name = h.name := rfl
@[simp] theorem withAttr_results : (h.withAttr key attr).results = h.results := rfl
@[simp] theorem withAttr_args : (h.withAttr key attr).args = h.args := rfl
@[simp] theorem withAttr_attrs : (h.withAttr key attr).attrs = h.attrs.set key attr := rfl

end Fields

end Head

mutual

inductive Operator where
  | mk (head : Head) (regions : List Region)

inductive Region where
  | mk (blocks : List Block)

inductive Block where
  | mk (label : Option Label) (items : List Operator)

end

instance : Inhabited Region := ⟨.mk []⟩

instance : Inhabited Block := ⟨.mk none []⟩

instance : Inhabited Operator := ⟨.mk { dialect := .builtin, name := "" } []⟩

namespace Operator

def head : Operator → Head
  | mk head _ => head

def regions : Operator → List Region
  | mk _ regions => regions

end Operator

def Region.blocks : Region → List Block
  | mk blocks => blocks

def Block.label : Block → Option Label
  | mk label _ => label

def Block.items : Block → List Operator
  | mk _ items => items

/-- A region of one block. -/
def Region.single (label : Option Label) (items : List Operator) : Region := .mk [.mk label items]

/-- The operators in the first block of a region. -/
def Region.firstItems (r : Region) : List Operator :=
  match r.blocks with
  | [] => []
  | b :: _ => b.items

/-- The operators in the first block of a region given by its number. -/
def Operator.regionItems (op : Operator) (i : Nat) : List Operator :=
  match op.regions[i]? with
  | some r => r.firstItems
  | none => []

/-- A walk through a tree in the order of printing: what it takes down at each kind of node, and what it
carries from one to the next. -/
structure Walk (γ α : Type) where
  atOperator : γ → Operator → List α := fun _ _ => []
  atRegion : γ → Region → List α := fun _ _ => []
  atLabel : γ → Label → List α := fun _ _ => []
  /-- Whether the regions of an operator are gone through. -/
  enters : Operator → Bool := fun _ => true
  /-- What is carried into the regions of an operator. -/
  inside : γ → Operator → γ := fun c _ => c
  /-- What is carried into a block. -/
  within : γ → Block → γ := fun c _ => c
  /-- What is carried past an operator, to the next one of its block. -/
  past : γ → Operator → γ := fun c _ => c

namespace Walk

variable {γ α : Type}

mutual

/-- What is taken down at an operator and below it. -/
def operator (w : Walk γ α) (c : γ) : Operator → List α
  | .mk head regions =>
    w.atOperator c (.mk head regions) ++
      if w.enters (.mk head regions) then w.regions (w.inside c (.mk head regions)) regions else []
termination_by structural o => o

def regions (w : Walk γ α) (c : γ) : List Region → List α
  | [] => []
  | .mk blocks :: rest => w.atRegion c (.mk blocks) ++ w.blocks c blocks ++ w.regions c rest
termination_by structural rs => rs

def blocks (w : Walk γ α) (c : γ) : List Block → List α
  | [] => []
  | .mk label items :: rest =>
    label.toList.flatMap (w.atLabel c) ++ w.items (w.within c (.mk label items)) items ++ w.blocks c rest
termination_by structural bs => bs

def items (w : Walk γ α) (c : γ) : List Operator → List α
  | [] => []
  | op :: rest => w.operator c op ++ w.items (w.past c op) rest
termination_by structural os => os

end

/-- Takes down the operators, each before those in its regions. -/
def operators : Walk Unit Operator where
  atOperator _ op := [op]

end Walk

/-- An operator and all operators below it, each before those in its regions. -/
def Operator.walk (op : Operator) : List Operator := Walk.operators.operator () op

/-- Counts by opcode, ascending, each opcode once. -/
abbrev Tally := List (String × Nat)

namespace Tally

/-- Counts one more occurrence. -/
def add (opcode : String) : Tally → Tally
  | [] => [(opcode, 1)]
  | (k, n) :: rest =>
    if opcode < k then (opcode, 1) :: (k, n) :: rest
    else if opcode = k then (k, n + 1) :: rest
    else (k, n) :: add opcode rest

def total : Tally → Nat
  | [] => 0
  | (_, n) :: rest => n + total rest

end Tally

/-- The opcode counts of an operator and all below it. -/
def Operator.tally (op : Operator) : Tally :=
  op.walk.foldl (fun t o => t.add o.head.opcode) []

end RegionIR
