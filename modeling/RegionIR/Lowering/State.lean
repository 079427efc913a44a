import RegionIR.Lowering.Blocks
/-!
# The state of lowering

Lowering goes through a program once. It keeps the blocks under construction and the stack of those it
is inside of, the variables of every open function, the declared types, and what is needed to name
values. Each step that can be observed is also recorded in a journal.
-/
namespace RegionIR

/-- What kind of definition a statement stands in. -/
inductive Site where
  | module
  | classBody
  | function
  deriving DecidableEq

/-- Where a variable lives. -/
inductive Home where
  | undefined
  /-- It is the given value, defined once, in the given block. -/
  | pending (block : Nat) (value : ValueId)
  /-- It is read by loads and written by stores. -/
  | memory
  deriving DecidableEq

/-- A finite map from names. -/
abbrev NameMap (α : Type) := List (String × α)

namespace NameMap

variable {α : Type}

def find? (m : NameMap α) (name : String) : Option α := m.lookup name

def erase (m : NameMap α) (name : String) : NameMap α := m.filter (·.1 != name)

def insert (m : NameMap α) (name : String) (a : α) : NameMap α := (name, a) :: erase m name

end NameMap

/-- The variables of a function body or of the module body. Loops, branches and class bodies share the
scope around them. -/
structure Scope where
  pending : NameMap (Nat × ValueId) := []
  memory : List String := []

namespace Scope

/-- Memory is looked at first. -/
def home (s : Scope) (name : String) : Home :=
  if name ∈ s.memory then .memory
  else
    match s.pending.find? name with
    | some (block, value) => .pending block value
    | none => .undefined

def define (s : Scope) (name : String) (block : Nat) (value : ValueId) : Scope :=
  { pending := s.pending.insert name (block, value), memory := s.memory.filter (· != name) }

def addMemory (s : Scope) (name : String) : Scope :=
  { s with memory := if name ∈ s.memory then s.memory else name :: s.memory }

def promote (s : Scope) (name : String) : Scope :=
  { (s.addMemory name) with pending := s.pending.erase name }

end Scope

/-- Something that happened, as the journal records it. -/
inductive Event where
  | decoded (statements : Nat)
  | entered (block depth : Nat)
  | left (block operators : Nat)
  | loaded (name : String) (value : ValueId)
  | promoting (name : String) (value : ValueId) (block : Nat)
  | movedToMemory (name : String)
  | lowered (statements : Nat)
  deriving DecidableEq

namespace Event

/-- The level at which an event is logged. -/
def level : Event → String
  | decoded _ | entered .. | left .. | loaded .. => "TRACE"
  | promoting .. | movedToMemory _ | lowered _ => "DEBUG"

def message : Event → String
  | decoded n => s!"decoded module with {n} top-level statements"
  | entered block depth => s!"enter block {block} (depth {depth})"
  | left block operators => s!"leave block {block} ({operators} ops)"
  | loaded name value => s!"load `{name}` into {value.text}"
  | promoting name value block =>
    s!"promoting `{name}` to memory (definition {value.text} in block {block})"
  | movedToMemory name => s!"`{name}` now lives in memory"
  | lowered n => s!"lowered {n} top-level statements"

end Event

/-- The state of lowering. All stacks have their top first. -/
structure State where
  blocks : Blocks := []
  /-- The blocks that lowering is inside of. -/
  nesting : List Nat := []
  scopes : List Scope := [{}]
  sites : List Site := [.module]
  types : NameMap Ty := []
  /-- Ids of first definitions that are in use. -/
  taken : List ValueId := []
  counter : Nat := 0
  journal : List Event := []

namespace State

/-- The block that receives operators. -/
def current (s : State) : Nat := s.nesting.headD 0

def site (s : State) : Site := s.sites.headD .module

def inFunction (s : State) : Bool := s.site = .function

def record (s : State) (e : Event) : State := { s with journal := s.journal ++ [e] }

/-- Appends to any block, also to one that has been left. -/
def emitInto (s : State) (block : Nat) (op : Staged) : State :=
  { s with blocks := s.blocks.emit block op }

/-- Appends to the current block. -/
def emit (s : State) (op : Staged) : State := s.emitInto s.current op

/-- Opens a block and makes it the current one, which is then the first of `nesting`. -/
def enter (s : State) : State :=
  let block := s.blocks.length
  ({ s with blocks := s.blocks.extend, nesting := block :: s.nesting }).record
    (.entered block (s.nesting.length + 1))

/-- Leaves the given block. Nothing when it is not the current one. -/
def leave? (s : State) (block : Nat) : Option State :=
  match s.nesting with
  | [] => none
  | top :: rest =>
    if top = block then some (({ s with nesting := rest }).record (.left block (s.blocks.count block)))
    else none

def pushFunction (s : State) : State :=
  { s with scopes := {} :: s.scopes, sites := .function :: s.sites }

def popFunction (s : State) : State := { s with scopes := s.scopes.tail, sites := s.sites.tail }

def pushClass (s : State) : State := { s with sites := .classBody :: s.sites }

def popClass (s : State) : State := { s with sites := s.sites.tail }

/-- The innermost scope. -/
def scope (s : State) : Scope := s.scopes.headD {}

/-- Changes the innermost scope, opening one if there is none. -/
def updateScope (s : State) (f : Scope → Scope) : State :=
  { s with scopes := f s.scope :: s.scopes.tail }

def home (s : State) (name : String) : Home := s.scope.home name

/-- The next number. -/
def number (s : State) : Nat × State := (s.counter, { s with counter := s.counter + 1 })

/-- A fresh id for the result of an expression. -/
def freshTemp (s : State) : ValueId × State :=
  let (n, s) := s.number
  (.numbered n, s)

/-- A fresh id for a load or a later definition of a variable. -/
def freshVersion (s : State) (name : String) : ValueId × State :=
  let (n, s) := s.number
  (.versioned name n, s)

/-- A fresh id for a definition of a variable: its plain name the first time in the program. -/
def freshDefinition (s : State) (name : String) : ValueId × State :=
  let plain := ValueId.named name
  if plain ∈ s.taken then s.freshVersion name else (plain, { s with taken := plain :: s.taken })

/-- Makes a value the only definition of a variable, held in the given block. -/
def defineIn (s : State) (name : String) (value : ValueId) (block : Nat) : State :=
  s.updateScope (·.define name block value)

/-- Makes a value the only definition of a variable, held in the current block. -/
def define (s : State) (name : String) (value : ValueId) : State := s.defineIn name value s.current

def declare (s : State) (name : String) (ty : Ty) : State :=
  { s with types := s.types.insert name ty }

def declared? (s : State) (name : String) : Option Ty := s.types.find? name

/-- The declared type of a name, or the unknown one. -/
def typeOf (s : State) (name : String) : Ty := (s.declared? name).getD .unknown

/-- Binds a formal parameter of the function with the given entry block. -/
def bind (s : State) (name : String) (ty : Ty) (entry : Nat) : ValueId × State :=
  let (value, s) := s.freshDefinition name
  (value, (s.defineIn name value entry).declare name ty)

/-- Moves a variable to memory. The result is the definition that was pending, with its block. -/
def promote (s : State) (name : String) : Option (Nat × ValueId) × State :=
  let pending := s.scope.pending.find? name
  let s := s.updateScope (·.promote name)
  match pending with
  | some (block, value) => (pending, s.record (.promoting name value block))
  | none => (none, s)

/-- Makes a variable live in memory from now on. -/
def markMemory (s : State) (name : String) : State :=
  let marked := s.updateScope (·.addMemory name)
  if name ∈ s.scope.memory then marked else marked.record (.movedToMemory name)

end State

end RegionIR
