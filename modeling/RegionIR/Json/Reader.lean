import RegionIR.Json.Number
/-!
# Reading JSON texts

Readers for strings, keys, separators and whole values. Nesting is bounded, so a value is read by
recursion on the levels that are left; the lists inside one level are bounded by the length of the
text. `parse` reads a text that holds one value and nothing else.
-/
namespace RegionIR.Json

namespace Reader

def hexValue? (c : Char) : Option Nat :=
  if c.isDigit then some (c.toNat - '0'.toNat)
  else if 'a' ≤ c ∧ c ≤ 'f' then some (c.toNat - 'a'.toNat + 10)
  else if 'A' ≤ c ∧ c ≤ 'F' then some (c.toNat - 'A'.toNat + 10)
  else none

/-- The code unit of the four hexadecimal digits at byte `index` of a text of `size` bytes. -/
def codeUnit (size index : Nat) (rest : List Char) : Except FaultAt Nat :=
  if size < index + 4 then .error ⟨.endInString, size⟩
  else
    match (rest.take 4).mapM hexValue? with
    | some [a, b, c, d] => .ok (((a * 16 + b) * 16 + c) * 16 + d)
    | _ => .error ⟨.invalidEscape, index + 4⟩

/-- The character of an escape `\u` whose digits start at byte `index`, and the number of characters
after the `u` that belong to it. A leading surrogate takes the trailing one that must follow. -/
def unicodeEscape (size index : Nat) (rest : List Char) : Except FaultAt (Char × Nat) := do
  let lead ← codeUnit size index rest
  if 0xDC00 ≤ lead ∧ lead ≤ 0xDFFF then throw ⟨.loneSurrogate, index + 4⟩
  if lead < 0xD800 ∨ 0xDBFF < lead then return (Char.ofNat lead, 4)
  match rest.drop 4 with
  | [] => throw ⟨.endInString, index + 4⟩
  | '\\' :: [] => throw ⟨.endInString, index + 5⟩
  | '\\' :: 'u' :: rest =>
    let trail ← codeUnit size (index + 6) rest
    if trail < 0xDC00 ∨ 0xDFFF < trail then throw ⟨.loneSurrogate, index + 10⟩
    return (Char.ofNat ((lead - 0xD800) * 0x400 + (trail - 0xDC00) + 0x10000), 10)
  | '\\' :: _ => throw ⟨.unpairedSurrogate, index + 6⟩
  | _ => throw ⟨.unpairedSurrogate, index + 5⟩

/-- The character of an escape whose letter stands at byte `index`, and the number of characters from
that letter on that belong to it. -/
def escape (size index : Nat) : List Char → Except FaultAt (Char × Nat)
  | [] => .error ⟨.endInString, index⟩
  | '"' :: _ => .ok ('"', 1)
  | '\\' :: _ => .ok ('\\', 1)
  | '/' :: _ => .ok ('/', 1)
  | 'b' :: _ => .ok ('\x08', 1)
  | 'f' :: _ => .ok ('\x0c', 1)
  | 'n' :: _ => .ok ('\n', 1)
  | 'r' :: _ => .ok ('\r', 1)
  | 't' :: _ => .ok ('\t', 1)
  | 'u' :: rest => do
    let (c, n) ← unicodeEscape size (index + 1) rest
    return (c, n + 1)
  | _ => .error ⟨.invalidEscape, index + 1⟩

/-- Reads a string up to its closing quote. The first `skip` characters belong to an escape that has
been read; `read` holds the characters so far, the last one first. -/
def stringBody (size : Nat) : (skip : Nat) → List Char → (index : Nat) → (read : List Char) →
    Except FaultAt (String × Cursor)
  | _, [], index, _ => .error ⟨.endInString, index⟩
  | skip + 1, _ :: rest, index, read => stringBody size skip rest (index + 1) read
  | 0, c :: rest, index, read =>
    if c = '"' then .ok (String.ofList read.reverse, ⟨rest, index + 1, size⟩)
    else if c = '\\' then
      match escape size (index + 1) rest with
      | .error e => .error e
      | .ok (x, n) => stringBody size n rest (index + 1) (x :: read)
    else if c.toNat < 0x20 then .error ⟨.controlCharacter, index + 1⟩
    else stringBody size 0 rest (index + c.utf8Size) (c :: read)

/-- Reads a string whose opening quote is still unread. -/
def string : Reader String := do
  advance 1
  fun c => stringBody c.size 0 c.rest c.index []

/-- Reads a value that is not an array or an object. -/
def scalar (first : Char) : Reader Value := do
  if first = '"' then return .string (← string)
  else if first = '-' ∨ first.isDigit then return .number (← number)
  else if first = 'n' then letters ['n', 'u', 'l', 'l']; return .null
  else if first = 't' then letters ['t', 'r', 'u', 'e']; return .bool true
  else if first = 'f' then letters ['f', 'a', 'l', 's', 'e']; return .bool false
  else failAhead .expectedValue

/-- Reads up to the next element of an array; `false` when the array ends instead, with its bracket
read. -/
def nextElement (first : Bool) : Reader Bool := do
  match ← peekToken with
  | none => failAhead .endInList
  | some ']' => advance 1; return false
  | some c =>
    if first then return true
    else if c = ',' then
      advance 1
      match ← peekToken with
      | none => failAhead .endInValue
      | some ']' => failAhead .trailingComma
      | some _ => return true
    else failAhead .expectedListEnd

/-- Reads the next key of an object; nothing when the object ends instead, with its brace read. -/
def nextKey (first : Bool) : Reader (Option String) := do
  match ← peekToken with
  | none => failAhead .endInObject
  | some '\x7d' => advance 1; return none
  | some c =>
    if first then
      if c = '"' then return some (← string) else failAhead .keyNotString
    else if c = ',' then
      advance 1
      match ← peekToken with
      | none => failAhead .endInValue
      | some '"' => return some (← string)
      | some '\x7d' => failAhead .trailingComma
      | some _ => failAhead .keyNotString
    else failAhead .expectedObjectEnd

/-- Reads the colon between a key and its value. -/
def colon : Reader Unit := do
  match ← peekToken with
  | none => failAhead .endInObject
  | some ':' => advance 1
  | some _ => failAhead .expectedColon

/-- Reads the elements of an array; `steps` bounds their number. -/
def items (element : Reader Value) : (steps : Nat) → (first : Bool) → Reader (List Value)
  | 0, _ => failHere .endInList
  | steps + 1, first => do
    if ← nextElement first then
      let v ← element
      let vs ← items element steps false
      return v :: vs
    else return []

/-- Reads the members of an object; `steps` bounds their number. -/
def members (element : Reader Value) : (steps : Nat) → (first : Bool) →
    Reader (List (String × Value))
  | 0, _ => failHere .endInObject
  | steps + 1, first => do
    match ← nextKey first with
    | none => return []
    | some key =>
      colon
      let v ← element
      let ms ← members element steps false
      return (key, v) :: ms

/-- One more than the size of the text, a bound on what a list in it can hold. -/
def stepBound : Reader Nat := do return (← get).size + 1

/-- Reads a value with at most `depth` levels of arrays and objects. -/
def value : (depth : Nat) → Reader Value
  | 0 => do
    match ← peekToken with
    | none => failAhead .endInValue
    | some c => if c = '[' ∨ c = '\x7b' then failAhead .tooDeep else scalar c
  | depth + 1 => do
    match ← peekToken with
    | none => failAhead .endInValue
    | some c =>
      if c = '[' then
        advance 1
        return .array (← items (value depth) (← stepBound) true)
      else if c = '\x7b' then
        advance 1
        return .object (← members (value depth) (← stepBound) true)
      else scalar c

/-- Checks that only white space is left. -/
def finish : Reader Unit := do
  match ← peekToken with
  | none => return ()
  | some _ => failAhead .trailingCharacters

end Reader

/-- The deepest nesting of arrays and objects that is read. -/
def depthLimit : Nat := 127

/-- The value of a text. -/
def parse (text : String) : Except FaultAt Value := do
  let (v, _) ← (do let v ← Reader.value depthLimit; Reader.finish; return v : Reader Value).run
    (Cursor.ofText text)
  return v

end RegionIR.Json
