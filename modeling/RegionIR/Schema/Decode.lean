import RegionIR.Schema.Grammar
/-!
# Decoding JSON values

How each shape is read off a JSON value. A shape says what it makes of a scalar, of an array and of an
object; the recursion over values is one and the same for all shapes. Members of an object are
visited in the order in which they stand, so that order decides which of several mismatches is
reported.
-/
namespace RegionIR.Schema

/-- Where a value stands: `outer` for the value handed to the decoder and the records directly in it,
`inner` for all that is part of a tagged node. The two word a surplus element differently. -/
inductive Layer where
  | outer
  | inner
  deriving DecidableEq

/-- What was expected of an array that has more than the `count` elements wanted. -/
def Layer.surplus : Layer → (count : Nat) → Expected
  | outer, _ => .fewerElements
  | inner, count => .elements count

/-- What a shape makes of an array. -/
inductive SequenceForm (α : Type) : Type 1 where
  | refused (expected : Expected)
  | items (element : Shape) (build : List element.Carrier → α)
  | record (name : String) (fields : List Field) (build : Record fields → α)
  | choice (variants : List (Variant α))

/-- What a shape makes of an object. A choice reads the fields of its variant and then those that
every variant has. -/
inductive MappingForm (α : Type) : Type 1 where
  | refused (expected : Expected)
  | record (fields : List Field) (build : Record fields → α)
  | choice (β : Type) (variants : List (Variant β)) (shared : List Field)
      (build : β → Record shared → α)

def Variant.map {α β : Type} (f : α → β) (v : Variant α) : Variant β :=
  ⟨v.name, v.fields, fun r => f (v.build r)⟩

def SequenceForm.map {α β : Type} (f : α → β) : SequenceForm α → SequenceForm β
  | refused expected => refused expected
  | items element build => items element fun xs => f (build xs)
  | record name fields build => record name fields fun r => f (build r)
  | choice variants => choice (variants.map (Variant.map f))

def MappingForm.map {α β : Type} (f : α → β) : MappingForm α → MappingForm β
  | refused expected => refused expected
  | record fields build => record fields fun r => f (build r)
  | choice γ variants shared build => choice γ variants shared fun a r => f (build a r)

namespace Shape

/-- What a shape expects; used when a value has the wrong kind. -/
def expected : Shape → Expected
  | text => .text
  | byte => .byte
  | position => .position
  | literal => .literal
  | boolOperator => .choice "BoolOperator"
  | binaryOperator => .choice "BinaryOperator"
  | cmpOperator => .choice "CmpOperator"
  | unaryOperator => .choice "UnaryOperator"
  | expr => .record "RawExpr"
  | stmt => .record "RawStmt"
  | param => .record "Arg"
  | params => .record "Arguments"
  | keyword => .record "Keyword"
  | optional s => s.expected
  | list _ => .sequence

def sequenceForm : (s : Shape) → SequenceForm s.Carrier
  | boolOperator => .choice boolOperatorVariants
  | binaryOperator => .choice binaryOperatorVariants
  | cmpOperator => .choice cmpOperatorVariants
  | unaryOperator => .choice unaryOperatorVariants
  | param => .record "Arg" paramFields paramOf
  | params => .record "Arguments" paramsFields paramsOf
  | keyword => .record "Keyword" keywordFields keywordOf
  | optional s => s.sequenceForm.map some
  | list s => .items s id
  | s => .refused s.expected

def mappingForm : (s : Shape) → MappingForm s.Carrier
  | boolOperator => .choice BoolOperator boolOperatorVariants [] fun op _ => op
  | binaryOperator => .choice BinaryOperator binaryOperatorVariants [] fun op _ => op
  | cmpOperator => .choice CmpOperator cmpOperatorVariants [] fun op _ => op
  | unaryOperator => .choice UnaryOperator unaryOperatorVariants [] fun op _ => op
  | expr => .choice ExprForm exprVariants positionFields fun form r => Expr.mk form (spanOf r)
  | stmt => .choice StmtForm stmtVariants positionFields fun form r => Stmt.mk form (spanOf r)
  | param => .record paramFields paramOf
  | params => .record paramsFields paramsOf
  | keyword => .record keywordFields keywordOf
  | optional s => s.mappingForm.map some
  | s => .refused s.expected

end Shape

/-- A literal integer: one that does not fit 64 signed bits is kept as its digits. -/
def integerLiteral (n : Int) : Literal :=
  if n < twoTo 63 then .int n else .bigInt (toString n)

/-- Reads a text. -/
def readText : Json.Value → Except Mismatch String
  | .string s => .ok s
  | v => .error (.ofType v .text)

/-- Reads an integer from zero up to but not including `bound`. -/
def readNat (expected : Expected) (bound : Nat) : Json.Value → Except Mismatch Nat
  | .number (.int n) =>
    if 0 ≤ n ∧ n < bound then .ok n.toNat else .error (.value (.int n) expected)
  | v => .error (.ofType v expected)

/-- Reads a literal. -/
def readLiteral : Json.Value → Except Mismatch Literal
  | .null => .ok .none
  | .bool b => .ok (.bool b)
  | .number (.int n) => .ok (integerLiteral n)
  | .number (.float x) => .ok (.float x)
  | .string s => .ok (.text s)
  | v => .error (.ofType v .literal)

/-- Reads a scalar value; the compound ones are read by `decode`. -/
def readScalar : (s : Shape) → Json.Value → Except Mismatch s.Carrier
  | .optional _, .null => .ok none
  | .optional s, v => do return some (← readScalar s v)
  | .text, v => readText v
  | .byte, v => do return UInt8.ofNat (← readNat .byte 256 v)
  | .position, v => readNat .position (twoTo 64) v
  | .literal, v => readLiteral v
  | s, v => .error (.ofType v s.expected)

/-- The variant of the given name. -/
def variantNamed {α : Type} (variants : List (Variant α)) (name : String) :
    Except Mismatch (Variant α) :=
  match variants.find? (·.name = name) with
  | some v => .ok v
  | none => .error (.unknownVariant name (variants.map Variant.name))

/-- The variant that a tag names, or numbers from zero. -/
def variantOf {α : Type} (variants : List (Variant α)) : Json.Value → Except Mismatch (Variant α)
  | .string name => variantNamed variants name
  | .number (.int n) =>
    if n < 0 then .error (.type (.int n) .variantName)
    else
      match variants[n.toNat]? with
      | some v => .ok v
      | none => .error (.value (.int n) (.variantIndex variants.length))
  | v => .error (.ofType v .variantName)

/-- The variant that a tag names. At the root of a tree variants have no numbers. -/
def namedVariantOf {α : Type} (variants : List (Variant α)) :
    Json.Value → Except Mismatch (Variant α)
  | .string name => variantNamed variants name
  | v => .error (.ofType v .variantName)

/-- The variant of an object: its tag is read where it stands, and a second one is refused. -/
def chooseVariant {α : Type} (readTag : Json.Value → Except Mismatch (Variant α)) :
    Option (Variant α) → List (String × Json.Value) → Except Mismatch (Variant α)
  | some v, [] => .ok v
  | none, [] => .error (.missingField tagKey)
  | seen, (key, value) :: rest =>
    if key = tagKey then
      match seen with
      | some _ => .error (.duplicateField tagKey)
      | none => do chooseVariant readTag (some (← readTag value)) rest
    else chooseVariant readTag seen rest

mutual

/-- Reads a value as a shape says. -/
def decode (layer : Layer) (s : Shape) : Json.Value → Except Mismatch s.Carrier
  | .array items =>
    match s.sequenceForm with
    | .refused expected => .error (.type .sequence expected)
    | .items element build => do return build (← decodeItems layer element items)
    | .record name fields build => do
      return build (← decodeElements layer (.recordOf name fields.length) 0 fields items)
    | .choice variants =>
      match items with
      | [] => .error (.missingField tagKey)
      | tag :: rest => do
        let v ← variantOf variants tag
        return v.build (← decodeElements .inner .sequence 0 v.fields rest)
  | .object members =>
    match s.mappingForm with
    | .refused expected => .error (.type .mapping expected)
    | .record fields build => do
      return build (← (← decodeMembers layer fields (.empty fields) members).close)
    | .choice _ variants shared build => do
      let v ← chooseVariant (variantOf variants) none members
      let own ← (← decodeMembers .inner v.fields (.empty v.fields) members).close
      let common ← (← decodeMembers .inner shared (.empty shared) members).close
      return build (v.build own) common
  | v => readScalar s v
termination_by structural v => v

/-- Reads the elements of an array, all of one shape. -/
def decodeItems (layer : Layer) (s : Shape) : List Json.Value → Except Mismatch (List s.Carrier)
  | [] => .ok []
  | v :: rest => do
    let a ← decode layer s v
    let as ← decodeItems layer s rest
    return a :: as
termination_by structural vs => vs

/-- Reads the elements of an array as the fields of a record, the first of them at `index`. -/
def decodeElements (layer : Layer) (expected : Expected) (index : Nat) (fields : List Field) :
    List Json.Value → Except Mismatch (Record fields)
  | [] => Record.rest expected index fields
  | v :: rest =>
    match fields with
    | [] => .error (.length (index + rest.length + 1) (layer.surplus index))
    | f :: fs => do
      let a ← decode layer f.shape v
      let as ← decodeElements layer expected (index + 1) fs rest
      return (a, as)
termination_by structural vs => vs

/-- Reads the members of an object into the open slots of a record. Members that are no field are
passed over. -/
def decodeMembers (layer : Layer) (fields : List Field) (slots : Slots fields) :
    List (String × Json.Value) → Except Mismatch (Slots fields)
  | [] => .ok slots
  | (key, v) :: rest =>
    match Place.find? key fields with
    | none => decodeMembers layer fields slots rest
    | some place =>
      if (slots.get place).isSome then .error (.duplicateField key)
      else do
        let a ← decode layer place.shape v
        decodeMembers layer fields (slots.set place a) rest
termination_by structural ms => ms

end

end RegionIR.Schema
