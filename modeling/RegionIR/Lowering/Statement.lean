import RegionIR.Lowering.Binding
/-!
# Lowering statements

Every supported statement becomes one operator. What computes its operands is appended to the current
block first; its bodies become regions of one block each.
-/
namespace RegionIR

/-- The label of a function's entry block. -/
def entryLabel : String := "^entry"

/-- Expressions recorded as text. -/
def writtenList (es : List Expr) : Attr := .list (es.map fun e => .text e.written)

/-- The first kind of parameter that is not supported: only plain ones without defaults are. -/
def Params.refused? (p : Params) : Option Construct :=
  if !p.posOnly.isEmpty then some .posOnlyParam
  else if let some v := p.variadic then some (.variadicParam v.name)
  else if !p.keywordOnly.isEmpty then some .keywordOnlyParam
  else if let some v := p.keywordVariadic then some (.keywordVariadicParam v.name)
  else if !p.defaults.isEmpty || p.keywordDefaults.any Option.isSome then some .defaultValue
  else none

namespace Lower

/-- The name of a target, or a refusal that names its kind. -/
def targetName (target : Expr) (span : Option Span) (refusal : String → Construct) :
    Lower String :=
  match target.name? with
  | some name => return name
  | none => refuse (refusal target.kind) (target.span <|> span)

/-- The only target of an assignment, which has to be a name. -/
def singleTarget (targets : List Expr) (span : Option Span) : Lower String :=
  match targets with
  | [target] => targetName target span .assignTarget
  | _ => refuse (.targetCount targets.length) span

/-- A region that computes an expression and yields its value. -/
def exprRegion (e : Expr) : Lower Slot := do
  let (block, _) ← inBlock fun _ => do
    let x ← operand e
    emit (.ofHead ((Head.py "yield").withArgs [x]))
  return ⟨block, none⟩

/-- A region that holds what a step appends. -/
def region (body : Lower Unit) : Lower Slot := do
  let (block, _) ← inBlock fun _ => body
  return ⟨block, none⟩

/-- Binds the formal parameters of a function. -/
def bindParams (entry : Nat) : List Param → Lower (List (ValueId × Ty))
  | [] => return []
  | p :: rest => do
    let ty := annotatedTy? p.annot
    let value ← step (·.bind p.name ty entry)
    let more ← bindParams entry rest
    return (value, ty) :: more

/-- An annotated assignment that only declares: outside functions, or without a value. -/
def fieldDeclaration (target annot : Expr) (value : Option Expr) (simple : UInt8) :
    Lower Staged := do
  if let some name := target.name? then modify (·.declare name annot.annotatedTy)
  let h := (((Head.py "annAssign").withAttr "target" (.text target.written)).withAttr
    "annotation" (.text annot.written)).withAttr "simple" (.bool (simple != 0))
  match value with
  | some e => return .ofHead (h.withArgs [← operand e])
  | none => return .ofHead h

/-- An annotated assignment. Inside a function it needs a name, and with a value it is an assignment
of the annotated type. -/
def annotated (target annot : Expr) (value : Option Expr) (simple : UInt8)
    (span : Option Span) : Lower Staged := do
  if (← get).inFunction then
    let name ← targetName target span .annTarget
    match value with
    | some e => assignment name e (some annot.annotatedTy)
    | none => fieldDeclaration target annot none simple
  else fieldDeclaration target annot value simple

/-- A function definition, given the step that lowers its body. -/
def function (name : String) (params : Params) (decorators : List Expr) (returns : Option Expr)
    (span : Option Span) (body : Lower Unit) : Lower Staged := do
  if let some construct := params.refused? then refuse construct span
  let result := annotatedTy? returns
  modify (·.declare name result)
  modify State.pushFunction
  let (entry, formals) ← inBlock fun entry => do
    let formals ← bindParams entry params.plain
    body
    return formals
  modify State.popFunction
  let h := (Head.builtin "func").withAttr "sym_name" (.text name)
  let h := if decorators.isEmpty then h else h.withAttr "decorators" (writtenList decorators)
  let h := h.withAttr "function_type" (.functionType (formals.map Prod.snd) result)
  return .ofHead h [⟨entry, some ⟨entryLabel, formals⟩⟩]

/-- A class definition, given the step that lowers its body. -/
def classDefinition (name : String) (bases : List Expr) (keywords : List Keyword)
    (decorators : List Expr) (body : Lower Unit) : Lower Staged := do
  modify State.pushClass
  let slot ← region body
  modify State.popClass
  let h := (((Head.py "class").withAttr "name" (.text name)).withAttr
    "bases" (writtenList bases)).withAttr
    "keywords" (.list (keywords.map fun k => .text k.written))
  return .ofHead (h.withAttr "decorators" (writtenList decorators)) [slot]

mutual

/-- Lowers a statement to its operator, which is not yet appended. -/
def statement : Stmt → Lower Staged
  | .mk form span =>
    match form with
    | .functionDef name params stmts decorators returns =>
      function name params decorators returns span (body stmts)
    | .classDef name bases keywords stmts decorators =>
      classDefinition name bases keywords decorators (body stmts)
    | .ret none => return .ofHead (Head.py "return")
    | .ret (some e) => do return .ofHead ((Head.py "return").withArgs [← operand e])
    | .assign targets value => do
      let name ← singleTarget targets span
      assignment name value none
    | .augAssign target op value => do
      let name ← targetName target span .augTarget
      let x ← operand value
      modify (·.writeThrough name)
      return .ofHead (((((Head.py "augAssign").withAttr "target" (.text name)).withAttr
        "op" (.text op.name))).withArgs [x])
    | .annAssign target annot value simple => annotated target annot value simple span
    | .forIn target iter stmts orelse => do
      if !orelse.isEmpty then refuse (.loopElse .forLoop) span
      let name ← targetName target span .forTarget
      let source ← exprRegion iter
      modify (·.writeThrough name)
      let loop ← region (body stmts)
      return .ofHead ((Head.py "for").withAttr "target" (.text name)) [source, loop]
    | .whileDo test stmts orelse => do
      if !orelse.isEmpty then refuse (.loopElse .whileLoop) span
      let condition ← exprRegion test
      let loop ← region (body stmts)
      return .ofHead (Head.py "while") [condition, loop]
    | .ifElse test stmts orelse => do
      let x ← operand test
      let yes ← region (body stmts)
      let h := (Head.py "if").withArgs [x]
      if orelse.isEmpty then return .ofHead h [yes]
      else
        let no ← region (body orelse)
        return .ofHead h [yes, no]
    | .expr value => do return .ofHead ((Head.py "expr").withArgs [← operand value])
    | .pass => return .ofHead (Head.py "pass")
    | .breakLoop => return .ofHead (Head.py "break")
    | .continueLoop => return .ofHead (Head.py "continue")
    | .bare kind => refuse (.statement kind.kind) span
termination_by structural s => s

/-- Lowers statements one by one, appending their operators to the current block. -/
def body : List Stmt → Lower Unit
  | [] => return ()
  | s :: rest => do
    emit (← statement s)
    body rest
termination_by structural ss => ss

end

end Lower

end RegionIR
