/-!
# Faults of a JSON text

What can be wrong with a text, and where. A place is a byte index into the text; `Position` turns it
into a line and a column.
-/
namespace RegionIR.Json

/-- Ways in which a text fails to be JSON. -/
inductive Fault where
  | endInValue
  | endInList
  | endInObject
  | endInString
  | expectedValue
  | expectedIdent
  | expectedColon
  | expectedListEnd
  | expectedObjectEnd
  | trailingComma
  | keyNotString
  | controlCharacter
  | invalidEscape
  | loneSurrogate
  | unpairedSurrogate
  | invalidNumber
  | numberOutOfRange
  | tooDeep
  | trailingCharacters
  deriving DecidableEq

def Fault.message : Fault → String
  | endInValue => "EOF while parsing a value"
  | endInList => "EOF while parsing a list"
  | endInObject => "EOF while parsing an object"
  | endInString => "EOF while parsing a string"
  | expectedValue => "expected value"
  | expectedIdent => "expected ident"
  | expectedColon => "expected `:`"
  | expectedListEnd => "expected `,` or `]`"
  | expectedObjectEnd => "expected `,` or `\x7d`"
  | trailingComma => "trailing comma"
  | keyNotString => "key must be a string"
  | controlCharacter => "control character (\\u0000-\\u001F) found while parsing a string"
  | invalidEscape => "invalid escape"
  | loneSurrogate => "lone leading surrogate in hex escape"
  | unpairedSurrogate => "unexpected end of hex escape"
  | invalidNumber => "invalid number"
  | numberOutOfRange => "number out of range"
  | tooDeep => "recursion limit exceeded"
  | trailingCharacters => "trailing characters"

/-- A fault at a byte index. -/
structure FaultAt where
  fault : Fault
  index : Nat
  deriving DecidableEq

/-- A line, counted from one, and the number of bytes between its start and a place on it. -/
structure Position where
  line : Nat
  column : Nat
  deriving DecidableEq

/-- Follows a text from byte `here`, on the line that began at byte `start`, up to byte `index`. -/
def Position.follow (index : Nat) : List Char → (here line start : Nat) → Position
  | [], _, line, start => ⟨line, index - start⟩
  | c :: rest, here, line, start =>
    if index ≤ here then ⟨line, index - start⟩
    else if c = '\n' then follow index rest (here + 1) (line + 1) (here + 1)
    else follow index rest (here + c.utf8Size) line start

/-- The position of a byte index in a text. -/
def Position.ofIndex (text : String) (index : Nat) : Position :=
  follow index text.toList 0 1 0

end RegionIR.Json
