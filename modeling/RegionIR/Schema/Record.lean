import RegionIR.Schema.Mismatch
import RegionIR.Tree.Basic
/-!
# Shapes, fields and records

A `Shape` names a type of the source tree that has a JSON spelling, and `Shape.Carrier` is that type.
A record is a tuple of the carriers of its fields, in the order in which they are declared. While a
record is being read its fields may still be open, which is what `Slots` holds.
-/
namespace RegionIR.Schema

inductive Shape where
  | text
  | byte
  | position
  | literal
  | boolOperator
  | binaryOperator
  | cmpOperator
  | unaryOperator
  | expr
  | stmt
  | param
  | params
  | keyword
  | optional (s : Shape)
  | list (s : Shape)

/-- The type whose values a shape describes. -/
def Shape.Carrier : Shape → Type
  | text => String
  | byte => UInt8
  | position => Nat
  | literal => Literal
  | boolOperator => BoolOperator
  | binaryOperator => BinaryOperator
  | cmpOperator => CmpOperator
  | unaryOperator => UnaryOperator
  | expr => Expr
  | stmt => Stmt
  | param => Param
  | params => Params
  | keyword => Keyword
  | optional s => Option s.Carrier
  | list s => List s.Carrier

/-- A named field; one with a fallback may be left out. -/
structure Field where
  name : String
  shape : Shape
  fallback : Option shape.Carrier

namespace Field

def required (name : String) (shape : Shape) : Field := ⟨name, shape, none⟩

def optional (name : String) (shape : Shape) : Field := ⟨name, .optional shape, some none⟩

def list (name : String) (shape : Shape) : Field := ⟨name, .list shape, some []⟩

end Field

/-- The values of a list of fields. -/
def Record : List Field → Type
  | [] => Unit
  | f :: fs => f.shape.Carrier × Record fs

/-- The values of those fields that have been read so far. -/
def Slots : List Field → Type
  | [] => Unit
  | f :: fs => Option f.shape.Carrier × Slots fs

/-- One field of a list of fields. -/
inductive Place : List Field → Type where
  | here {f : Field} {fs : List Field} : Place (f :: fs)
  | there {f : Field} {fs : List Field} (p : Place fs) : Place (f :: fs)

namespace Place

/-- The place of the field with the given name. -/
def find? (name : String) : (fs : List Field) → Option (Place fs)
  | [] => none
  | f :: fs => if f.name = name then some .here else (find? name fs).map .there

def shape : {fs : List Field} → Place fs → Shape
  | f :: _, .here => f.shape
  | _ :: _, .there p => p.shape

end Place

namespace Slots

def empty : (fs : List Field) → Slots fs
  | [] => ()
  | _ :: fs => (none, empty fs)

def get : {fs : List Field} → Slots fs → (p : Place fs) → Option p.shape.Carrier
  | _ :: _, (x, _), .here => x
  | _ :: _, (_, rest), .there p => get rest p

def set : {fs : List Field} → Slots fs → (p : Place fs) → p.shape.Carrier → Slots fs
  | _ :: _, (_, rest), .here, a => (some a, rest)
  | _ :: _, (x, rest), .there p, a => (x, set rest p a)

/-- The record once all members are read. Open fields take their fallback; the first open one that
has none is missing. -/
def close : {fs : List Field} → Slots fs → Except Mismatch (Record fs)
  | [], _ => .ok ()
  | f :: _, (x, rest) =>
    match x <|> f.fallback with
    | none => .error (.missingField f.name)
    | some a => do return (a, ← close rest)

end Slots

/-- The record of fields for which an array has no more elements, the first of them at `index`. -/
def Record.rest (expected : Expected) : (index : Nat) → (fs : List Field) →
    Except Mismatch (Record fs)
  | _, [] => .ok ()
  | index, f :: fs =>
    match f.fallback with
    | none => .error (.length index expected)
    | some a => do return (a, ← Record.rest expected (index + 1) fs)

/-- One of several alternatives, told apart by name. -/
structure Variant (α : Type) where
  name : String
  fields : List Field
  build : Record fields → α

/-- A variant without fields. -/
def Variant.plain {α : Type} (name : String) (a : α) : Variant α := ⟨name, [], fun _ => a⟩

end RegionIR.Schema
