import RegionIR.Decimal.Layout
import RegionIR.Json.Value
import RegionIR.Text
/-!
# Mismatches between a JSON value and a schema

The ways in which a well-formed JSON value fails to spell what a schema asks for, and their wording.
-/
namespace RegionIR.Schema

/-- What was found: a scalar with its value, or the kind of a compound value. -/
inductive Found where
  | null
  | bool (b : Bool)
  | int (n : Int)
  | float (x : Binary64)
  | text (s : String)
  | sequence
  | mapping
  deriving DecidableEq

def Found.ofValue : Json.Value → Found
  | .null => .null
  | .bool b => .bool b
  | .number (.int n) => .int n
  | .number (.float x) => .float x
  | .string s => .text s
  | .array _ => .sequence
  | .object _ => .mapping

def Found.message : Found → String
  | null => "null"
  | bool b => s!"boolean `{b}`"
  | int n => s!"integer `{n}`"
  | float x => s!"floating point `{Decimal.Layout.message.text x}`"
  | text s => s!"string {Text.quoted s}"
  | sequence => "sequence"
  | mapping => "map"

/-- What a schema asked for. -/
inductive Expected where
  | text
  | sequence
  | position
  | byte
  | literal
  /-- A record with named fields, which may also be given as an array. -/
  | record (name : String)
  /-- One of several tagged variants. -/
  | choice (name : String)
  | variantName
  | variantIndex (count : Nat)
  /-- An array long enough for the fields of a record. -/
  | recordOf (name : String) (count : Nat)
  /-- An array of exactly so many elements. -/
  | elements (count : Nat)
  | fewerElements
  deriving DecidableEq

def Expected.message : Expected → String
  | text => "a string"
  | sequence => "a sequence"
  | position => "usize"
  | byte => "u8"
  | literal => "null, a boolean, a number or a string"
  | record name => s!"struct {name}"
  | choice name => s!"internally tagged enum {name}"
  | variantName => "variant identifier"
  | variantIndex count => s!"variant index 0 <= i < {count}"
  | recordOf name count => s!"struct {name} with {count} elements"
  | elements 1 => "1 element in sequence"
  | elements count => s!"{count} elements in sequence"
  | fewerElements => "fewer elements in array"

inductive Mismatch where
  | type (found : Found) (expected : Expected)
  | value (found : Found) (expected : Expected)
  | length (count : Nat) (expected : Expected)
  | unknownVariant (name : String) (known : List String)
  | duplicateField (name : String)
  | missingField (name : String)
  deriving DecidableEq

/-- The names that are allowed, as a phrase. -/
def oneOf : List String → String
  | [] => "there are no variants"
  | [a] => s!"expected `{a}`"
  | [a, b] => s!"expected `{a}` or `{b}`"
  | names => "expected one of " ++ ", ".intercalate (names.map fun n => s!"`{n}`")

def Mismatch.message : Mismatch → String
  | type found expected => s!"invalid type: {found.message}, expected {expected.message}"
  | value found expected => s!"invalid value: {found.message}, expected {expected.message}"
  | length count expected => s!"invalid length {count}, expected {expected.message}"
  | unknownVariant name known => s!"unknown variant `{name}`, {oneOf known}"
  | duplicateField name => s!"duplicate field `{name}`"
  | missingField name => s!"missing field `{name}`"

/-- The mismatch of a value that has the wrong kind. -/
def Mismatch.ofType (v : Json.Value) (expected : Expected) : Mismatch :=
  .type (.ofValue v) expected

end RegionIR.Schema
