import Mathlib
import RegionIR.Json.Value
import RegionIR.Tree.Basic
/-!
# The JSON spellings of a tree

A tree has many spellings. A node is an object whose tag names its kind and whose fields stand under
the names that the grammar gives them, in any order and among any other members. A field that holds its
default may be left out, and an option that is absent may be left out or null. A span is spelled by four
positions, of which those that can be told from the others may be left out.
-/
namespace RegionIR

open Json (Value)

namespace Spelling

def Given (ms : List (String × Value)) (key : String) (spelled : Value → Prop) : Prop :=
  ∃ v, ms.lookup key = some v ∧ spelled v

/-- A member that may be left out if it holds a default. -/
def Elidable (ms : List (String × Value)) (key : String) (default : Prop) (spelled : Value → Prop) : Prop :=
  (default ∧ ms.lookup key = none) ∨ Given ms key spelled

def Sequence (spelled : List Value → Prop) (v : Value) : Prop := ∃ items, v = .array items ∧ spelled items

def Listed {α : Type} (spelled : α → Value → Prop) (xs : List α) : Value → Prop :=
  Sequence (List.Forall₂ spelled xs)

/-- An option: null, or what spells the value. -/
def Optional {α : Type} (spelled : α → Value → Prop) (x : Option α) (v : Value) : Prop :=
  (x = none ∧ v = .null) ∨ ∃ a, x = some a ∧ spelled a v

/-- A list that may be left out if it is empty. -/
def ListField {α : Type} (ms : List (String × Value)) (key : String) (spelled : α → Value → Prop)
    (xs : List α) : Prop :=
  Elidable ms key (xs = []) (Listed spelled xs)

/-- An option that may be left out if it is absent. -/
def OptionField {α : Type} (ms : List (String × Value)) (key : String) (spelled : α → Value → Prop)
    (x : Option α) : Prop :=
  Elidable ms key (x = none) (Optional spelled x)

def Text (s : String) (v : Value) : Prop := v = .string s

def Byte (n : UInt8) (v : Value) : Prop := v = .number (.int n.toNat)

/-- A line or a column, which fits 64 bits. -/
def Position (n : Nat) (v : Value) : Prop := n < 2 ^ 64 ∧ v = .number (.int n)

/-- An object with a tag, and with members that are as the node's fields say. -/
def Node (kind : String) (fields : List (String × Value) → Prop) (v : Value) : Prop :=
  ∃ ms, v = .object ms ∧ ms.lookup "_t" = some (.string kind) ∧ fields ms

/-- An operator symbol is a node without fields. -/
def Symbol (tag : String) (v : Value) : Prop := Node tag (fun _ => True) v

def Absent (ms : List (String × Value)) (key : String) : Prop :=
  ms.lookup key = none ∨ ms.lookup key = some .null

/-- A position that may be left out if it is what another one makes it. -/
def Offset (ms : List (String × Value)) (key : String) (default n : Nat) : Prop :=
  Given ms key (Position n) ∨ (n = default ∧ Absent ms key)

/-- The place of a node. Without a first line there is none, whatever the other positions are. -/
def Placed (span : Option Span) (ms : List (String × Value)) : Prop :=
  match span with
  | none =>
    Absent ms "lineno" ∧ ∀ key ∈ ["col_offset", "end_lineno", "end_col_offset"],
      Absent ms key ∨ ∃ n, Given ms key (Position n)
  | some s =>
    Given ms "lineno" (Position s.start.line) ∧ Offset ms "col_offset" 0 s.start.column ∧
      Offset ms "end_lineno" s.start.line s.stop.line ∧
      Offset ms "end_col_offset" s.start.column s.stop.column

end Spelling

open Spelling

/-- A literal is spelled by the JSON scalar it is; digits stand for an integer of 64 unsigned bits that
64 signed bits do not hold. -/
def Literal.Spelled : Literal → Value → Prop
  | none, v => v = .null
  | bool b, v => v = .bool b
  | int n, v => (-2 ^ 63 ≤ n ∧ n < 2 ^ 63) ∧ v = .number (.int n)
  | bigInt digits, v => ∃ n : Int, (2 ^ 63 ≤ n ∧ n < 2 ^ 64) ∧ digits = toString n ∧ v = .number (.int n)
  | float x, v => v = .number (.float x)
  | text s, v => v = .string s

mutual

def Expr.Spelled : Expr → Value → Prop
  | .mk form span => Node form.kind fun ms => Placed span ms ∧
    match form with
    | .boolOp op values =>
      Given ms "op" (Symbol op.tag) ∧ Given ms "values" (Sequence (Expr.SpelledAll values))
    | .binOp left op right =>
      Given ms "left" left.Spelled ∧ Given ms "op" (Symbol op.tag) ∧ Given ms "right" right.Spelled
    | .unaryOp op operand => Given ms "op" (Symbol op.tag) ∧ Given ms "operand" operand.Spelled
    | .compare left ops comparators =>
      Given ms "left" left.Spelled ∧ Given ms "ops" (Listed (fun op => Symbol (CmpOperator.tag op)) ops) ∧
        Given ms "comparators" (Sequence (Expr.SpelledAll comparators))
    | .call func args keywords =>
      Given ms "func" func.Spelled ∧ Elidable ms "args" (args = []) (Sequence (Expr.SpelledAll args)) ∧
        Elidable ms "keywords" (keywords = []) (Sequence (Keyword.SpelledAll keywords))
    | .constant value kind =>
      Elidable ms "value" (value = .none) value.Spelled ∧ OptionField ms "kind" Text kind
    | .attr value name => Given ms "value" value.Spelled ∧ Given ms "attr" (Text name)
    | .subscript value slice => Given ms "value" value.Spelled ∧ Given ms "slice" slice.Spelled
    | .starred value => Given ms "value" value.Spelled
    | .name id => Given ms "id" (Text id)
    | .list elts => Elidable ms "elts" (elts = []) (Sequence (Expr.SpelledAll elts))
    | .tuple elts => Elidable ms "elts" (elts = []) (Sequence (Expr.SpelledAll elts))
    | .index value => Given ms "value" value.Spelled
    | .bare _ => True
termination_by structural e => e

def Expr.SpelledAll : List Expr → List Value → Prop
  | [], items => items = []
  | e :: es, items => ∃ v rest, items = v :: rest ∧ e.Spelled v ∧ Expr.SpelledAll es rest
termination_by structural es => es

def Keyword.Spelled : Keyword → Value → Prop
  | .mk arg value, v => ∃ ms, v = .object ms ∧ OptionField ms "arg" Text arg ∧
    Given ms "value" value.Spelled
termination_by structural k => k

def Keyword.SpelledAll : List Keyword → List Value → Prop
  | [], items => items = []
  | k :: ks, items => ∃ v rest, items = v :: rest ∧ k.Spelled v ∧ Keyword.SpelledAll ks rest
termination_by structural ks => ks

end

def Param.Spelled (p : Param) (v : Value) : Prop :=
  ∃ ms, v = .object ms ∧ Given ms "arg" (Text p.name) ∧ OptionField ms "annotation" Expr.Spelled p.annot

def Params.Spelled (p : Params) (v : Value) : Prop :=
  ∃ ms, v = .object ms ∧ ListField ms "posonlyargs" Param.Spelled p.posOnly ∧
    ListField ms "args" Param.Spelled p.plain ∧ OptionField ms "vararg" Param.Spelled p.variadic ∧
    ListField ms "kwonlyargs" Param.Spelled p.keywordOnly ∧
    ListField ms "kw_defaults" (Optional Expr.Spelled) p.keywordDefaults ∧
    OptionField ms "kwarg" Param.Spelled p.keywordVariadic ∧
    ListField ms "defaults" Expr.Spelled p.defaults

mutual

def Stmt.Spelled : Stmt → Value → Prop
  | .mk form span => Node form.kind fun ms => Placed span ms ∧
    match form with
    | .functionDef name params body decorators returns =>
      Given ms "name" (Text name) ∧ Given ms "args" params.Spelled ∧
        Elidable ms "body" (body = []) (Sequence (Stmt.SpelledAll body)) ∧
        ListField ms "decorator_list" Expr.Spelled decorators ∧ OptionField ms "returns" Expr.Spelled returns
    | .classDef name bases keywords body decorators =>
      Given ms "name" (Text name) ∧ ListField ms "bases" Expr.Spelled bases ∧
        ListField ms "keywords" Keyword.Spelled keywords ∧
        Elidable ms "body" (body = []) (Sequence (Stmt.SpelledAll body)) ∧
        ListField ms "decorator_list" Expr.Spelled decorators
    | .ret value => OptionField ms "value" Expr.Spelled value
    | .assign targets value =>
      Given ms "targets" (Listed Expr.Spelled targets) ∧ Given ms "value" value.Spelled
    | .augAssign target op value =>
      Given ms "target" target.Spelled ∧ Given ms "op" (Symbol op.tag) ∧ Given ms "value" value.Spelled
    | .annAssign target annot value simple =>
      Given ms "target" target.Spelled ∧ Given ms "annotation" annot.Spelled ∧
        OptionField ms "value" Expr.Spelled value ∧ Elidable ms "simple" (simple = 0) (Byte simple)
    | .forIn target iter body orelse =>
      Given ms "target" target.Spelled ∧ Given ms "iter" iter.Spelled ∧
        Elidable ms "body" (body = []) (Sequence (Stmt.SpelledAll body)) ∧
        Elidable ms "orelse" (orelse = []) (Sequence (Stmt.SpelledAll orelse))
    | .whileDo test body orelse =>
      Given ms "test" test.Spelled ∧ Elidable ms "body" (body = []) (Sequence (Stmt.SpelledAll body)) ∧
        Elidable ms "orelse" (orelse = []) (Sequence (Stmt.SpelledAll orelse))
    | .ifElse test body orelse =>
      Given ms "test" test.Spelled ∧ Elidable ms "body" (body = []) (Sequence (Stmt.SpelledAll body)) ∧
        Elidable ms "orelse" (orelse = []) (Sequence (Stmt.SpelledAll orelse))
    | .expr value => Given ms "value" value.Spelled
    | .pass => True
    | .breakLoop => True
    | .continueLoop => True
    | .bare _ => True
termination_by structural s => s

def Stmt.SpelledAll : List Stmt → List Value → Prop
  | [], items => items = []
  | s :: ss, items => ∃ v rest, items = v :: rest ∧ s.Spelled v ∧ Stmt.SpelledAll ss rest
termination_by structural ss => ss

end

def SourceUnit.Spelled (u : SourceUnit) : Value → Prop :=
  Node u.kind fun ms =>
    match u with
    | .module body => ListField ms "body" Stmt.Spelled body
    | _ => True

private theorem Spelling.eq_forall₂ {α : Type} {spelled : α → Value → Prop}
    {all : List α → List Value → Prop} (nil : ∀ items, all [] items ↔ items = [])
    (cons : ∀ x xs items, all (x :: xs) items ↔ ∃ v rest, items = v :: rest ∧ spelled x v ∧ all xs rest)
    (xs : List α) : all xs = List.Forall₂ spelled xs := by
  induction xs with
  | nil =>
    ext items
    rw [nil, List.forall₂_nil_left_iff]
  | cons x xs ih =>
    ext items
    rw [cons, List.forall₂_cons_left_iff, ih]
    constructor
    · rintro ⟨v, rest, rfl, hv, hrest⟩
      exact ⟨v, rest, hv, hrest, rfl⟩
    · rintro ⟨v, rest, hv, hrest, rfl⟩
      exact ⟨v, rest, rfl, hv, hrest⟩

theorem Expr.spelledAll_eq : (es : List Expr) → Expr.SpelledAll es = List.Forall₂ Expr.Spelled es :=
  eq_forall₂ (fun _ => by rw [Expr.SpelledAll]) fun _ _ _ => by rw [Expr.SpelledAll]

theorem Keyword.spelledAll_eq : (ks : List Keyword) →
    Keyword.SpelledAll ks = List.Forall₂ Keyword.Spelled ks :=
  eq_forall₂ (fun _ => by rw [Keyword.SpelledAll]) fun _ _ _ => by rw [Keyword.SpelledAll]

theorem Stmt.spelledAll_eq : (ss : List Stmt) → Stmt.SpelledAll ss = List.Forall₂ Stmt.Spelled ss :=
  eq_forall₂ (fun _ => by rw [Stmt.SpelledAll]) fun _ _ _ => by rw [Stmt.SpelledAll]

end RegionIR
