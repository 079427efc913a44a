import RegionIR.Json.Fault
/-!
# Reading position in a text

A `Cursor` is what is left of a text together with the number of bytes before it. A `Reader` moves a
cursor or fails at a byte index. A fault is reported either at the cursor or one byte on, where the
byte that caused it ends; the second never lies behind the end of the text.
-/
namespace RegionIR.Json

structure Cursor where
  rest : List Char
  /-- Bytes read so far. -/
  index : Nat
  /-- Bytes in the whole text. -/
  size : Nat

abbrev Reader := StateT Cursor (Except FaultAt)

namespace Cursor

def ofText (text : String) : Cursor := ⟨text.toList, 0, text.utf8ByteSize⟩

/-- The white space of JSON. -/
def isSpace (c : Char) : Bool := c = ' ' || c = '\n' || c = '\t' || c = '\r'

def skipSpace (c : Cursor) : Cursor :=
  let blanks := c.rest.takeWhile isSpace
  { c with rest := c.rest.dropWhile isSpace, index := c.index + blanks.length }

/-- Moves over `n` characters of one byte each. -/
def advance (c : Cursor) (n : Nat) : Cursor :=
  { c with rest := c.rest.drop n, index := c.index + n }

/-- The index just after the next byte, or the end of the text. -/
def ahead (c : Cursor) : Nat := min (c.index + 1) c.size

end Cursor

namespace Reader

/-- Fails at the cursor. -/
def failHere {α : Type} (fault : Fault) : Reader α := fun c => .error ⟨fault, c.index⟩

/-- Fails one byte after the cursor. -/
def failAhead {α : Type} (fault : Fault) : Reader α := fun c => .error ⟨fault, c.ahead⟩

def skipSpace : Reader Unit := modify Cursor.skipSpace

/-- The next character, which stays unread. -/
def peek : Reader (Option Char) := do return (← get).rest.head?

def advance (n : Nat) : Reader Unit := modify (·.advance n)

/-- The next character after white space, both left unread but the space. -/
def peekToken : Reader (Option Char) := do
  skipSpace
  peek

/-- Reads the given letters one by one. -/
def letters : List Char → Reader Unit
  | [] => pure ()
  | expected :: more => do
    match ← peek with
    | none => failHere .endInValue
    | some c => if c = expected then advance 1; letters more else failAhead .expectedIdent

/-- Reads the digits up to the next character that is none. -/
def digits : Reader (List Char) := do
  let ds := (← get).rest.takeWhile Char.isDigit
  advance ds.length
  return ds

end Reader

end RegionIR.Json
