import RegionIR.Diagnostic
import RegionIR.Json.Reader
import RegionIR.Schema.Decode
import RegionIR.Text
/-!
# Loading source trees

The entry points of the decoder. A tree that comes as a text is decoded while its root is being
scanned: the tag of the root is looked at as soon as it is read, so its mismatches have a position and
win over faults further on. Everything else in the root is decoded once the root has been scanned,
and what follows the root is looked at last.
-/
namespace RegionIR

/-- Why a tree could not be loaded. -/
inductive LoadError where
  | empty
  | fault (f : Json.Fault) (position : Json.Position)
  | mismatch (m : Schema.Mismatch) (position : Option Json.Position)
  deriving DecidableEq

namespace LoadError

def ofFault (text : String) (f : Json.FaultAt) : LoadError :=
  .fault f.fault (.ofIndex text f.index)

/-- The position of a failure in the text. -/
def position? : LoadError → Option Json.Position
  | empty => none
  | fault _ p => some p
  | mismatch _ p => p

/-- What is wrong, without the position. -/
def cause : LoadError → String
  | empty => "The provided source tree is empty."
  | fault f _ => s!"Malformed source tree: {f.message}"
  | mismatch m _ => s!"Malformed source tree: {m.message}"

/-- The cause with the position in the text; columns are counted from one here. -/
def message (e : LoadError) : String :=
  match e.position? with
  | some p => s!"{e.cause} at line {p.line} column {p.column}"
  | none => e.cause

/-- The position as a location, whose columns are counted from zero. -/
def location? (e : LoadError) : Option Location :=
  e.position?.map fun p => ⟨p.line, p.column - 1⟩

def diagnostic (e : LoadError) : Diagnostic := .badTree e.message e.location?

end LoadError

namespace Schema

/-- What the root of a tree is expected to be. -/
def rootExpected : Expected := .choice "SourceUnit"

/-- The unit of a variant whose fields are the members of an object. -/
def unitOfMembers (v : Variant SourceUnit) (members : List (String × Json.Value)) :
    Except Mismatch SourceUnit := do
  return v.build (← (← decodeMembers .inner v.fields (.empty v.fields) members).close)

/-- The unit of a variant whose fields are the elements of an array. -/
def unitOfElements (v : Variant SourceUnit) (items : List Json.Value) :
    Except Mismatch SourceUnit := do
  return v.build (← decodeElements .inner .sequence 0 v.fields items)

/-- The unit that a value spells. -/
def decodeUnit : Json.Value → Except Mismatch SourceUnit
  | .array [] => .error (.missingField tagKey)
  | .array (tag :: items) => do unitOfElements (← namedVariantOf unitVariants tag) items
  | .object members => do
    unitOfMembers (← chooseVariant (namedVariantOf unitVariants) none members) members
  | v => .error (.ofType v rootExpected)

/-- A failure while the root is scanned, at a byte index unless the scan had ended. -/
inductive RootFault where
  | fault (f : Json.FaultAt)
  | mismatch (m : Mismatch) (index : Option Nat)

/-- Readers that may also find a mismatch. -/
abbrev RootReader := StateT Json.Cursor (Except RootFault)

namespace RootReader

def lift {α : Type} (r : Json.Reader α) : RootReader α := fun c => (r c).mapError .fault

/-- Finds a mismatch at the cursor. -/
def mismatchHere {α : Type} (m : Mismatch) : RootReader α :=
  fun c => .error (.mismatch m (some c.index))

/-- Ends with a result that no longer depends on the text. -/
def ofExcept {α : Type} (r : Except Mismatch α) : RootReader α :=
  fun c => match r with
    | .ok a => .ok (a, c)
    | .error m => .error (.mismatch m none)

/-- Levels of nesting left for what stands in the root. -/
def innerDepth : Nat := Json.depthLimit - 1

/-- Reads the tag of the root, which has to be a text. -/
def tag : RootReader (Variant SourceUnit) := do
  match ← lift Json.Reader.peekToken with
  | none => lift (Json.Reader.failAhead .endInValue)
  | some '[' => mismatchHere (.type .sequence .variantName)
  | some '\x7b' => mismatchHere (.type .mapping .variantName)
  | some c =>
    match namedVariantOf unitVariants (← lift (Json.Reader.scalar c)) with
    | .ok v => return v
    | .error m => mismatchHere m

/-- Moves over white space, and over a closing brace if that comes next. -/
def settle : RootReader Unit := do
  if (← lift Json.Reader.peekToken) = some '\x7d' then lift (Json.Reader.advance 1)

/-- Reads the members of a root object up to its end. The result is the variant that its tag names
and the other members. -/
def members : (steps : Nat) → (first : Bool) → (seen : Option (Variant SourceUnit)) →
    RootReader (Variant SourceUnit × List (String × Json.Value))
  | 0, _, _ => lift (Json.Reader.failHere .endInObject)
  | steps + 1, first, seen => do
    match ← lift (Json.Reader.nextKey first) with
    | none =>
      match seen with
      | some v => return (v, [])
      | none => mismatchHere (.missingField tagKey)
    | some key =>
      if key = tagKey then
        match seen with
        | some _ =>
          settle
          mismatchHere (.duplicateField tagKey)
        | none =>
          lift Json.Reader.colon
          let v ← tag
          members steps false (some v)
      else
        lift Json.Reader.colon
        let value ← lift (Json.Reader.value innerDepth)
        let (v, rest) ← members steps false seen
        return (v, (key, value) :: rest)

/-- Reads the root of a tree. -/
def root : RootReader SourceUnit := do
  match ← lift Json.Reader.peekToken with
  | some '\x7b' =>
    lift (Json.Reader.advance 1)
    let (v, ms) ← members (← lift Json.Reader.stepBound) true none
    ofExcept (unitOfMembers v ms)
  | some '[' =>
    lift (Json.Reader.advance 1)
    if ← lift (Json.Reader.nextElement true) then
      let v ← tag
      let items ← lift do
        Json.Reader.items (Json.Reader.value innerDepth) (← Json.Reader.stepBound) false
      ofExcept (unitOfElements v items)
    else mismatchHere (.missingField tagKey)
  | _ =>
    let value ← lift (Json.Reader.value Json.depthLimit)
    mismatchHere (.ofType value rootExpected)

/-- Reads a text that holds one tree and nothing else. -/
def whole : RootReader SourceUnit := do
  let unit ← root
  lift Json.Reader.finish
  return unit

end RootReader

end Schema

namespace SourceUnit

/-- The tree that a JSON text spells. -/
def load (text : String) : Except LoadError SourceUnit :=
  if Text.isBlank text then .error .empty
  else
    match Schema.RootReader.whole.run (.ofText text) with
    | .ok (unit, _) => .ok unit
    | .error (.fault f) => .error (.ofFault text f)
    | .error (.mismatch m index) => .error (.mismatch m (index.map (.ofIndex text)))

/-- The tree that a JSON value spells, its objects taken as maps. -/
def ofValue (v : Json.Value) : Except LoadError SourceUnit :=
  (Schema.decodeUnit v.sorted).mapError fun m => .mismatch m none

end SourceUnit

/-- Decodes one node from a JSON value, its objects taken as maps. -/
def Schema.ofValue (s : Shape) (v : Json.Value) : Except LoadError s.Carrier :=
  (decode .outer s v.sorted).mapError fun m => .mismatch m none

def Expr.ofValue (v : Json.Value) : Except LoadError Expr := Schema.ofValue .expr v

def Stmt.ofValue (v : Json.Value) : Except LoadError Stmt := Schema.ofValue .stmt v

def Param.ofValue (v : Json.Value) : Except LoadError Param := Schema.ofValue .param v

def Params.ofValue (v : Json.Value) : Except LoadError Params := Schema.ofValue .params v

def Keyword.ofValue (v : Json.Value) : Except LoadError Keyword := Schema.ofValue .keyword v

end RegionIR
