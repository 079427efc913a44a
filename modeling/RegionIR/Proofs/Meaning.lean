import RegionIR.Proofs.Functions
import RegionIR.Proofs.Names
/-!
# The meaning of functions without loops

Both sides of lowering as evaluators over an arbitrary domain of values: statements over the variables
of a function, and operators over the values and the memory of a block. A run fails when it reads a
variable that has no value.
-/
namespace RegionIR

universe u

/-- A pure interpretation of what expressions are built from. A call is known by the text of its callee,
the texts of its named arguments and its positional arguments. -/
structure Interp (D : Type u) where
  constant : Literal → Option String → D
  unary : UnaryOperator → D → D
  binary : BinaryOperator → D → D → D
  connective : BoolOperator → D → D → D
  comparison : CmpOperator → D → D → D
  call : String → List String → List D → D
  truth : D → Bool

/-- How a run ends: at the end of the statements, or by returning. -/
inductive Outcome (D : Type u) where
  | next
  | returned (value : Option D)
  deriving DecidableEq

variable {D : Type u} {α : Type u}

/-- Goes on with what follows, unless the run has failed or returned. -/
def proceed (r : Option (α × Outcome D)) (k : α → Option (α × Outcome D)) : Option (α × Outcome D) :=
  match r with
  | none => none
  | some (a, .next) => k a
  | some (a, .returned v) => some (a, .returned v)

@[simp] theorem proceed_none (k : α → Option (α × Outcome D)) : proceed none k = none := rfl

@[simp] theorem proceed_next (a : α) (k : α → Option (α × Outcome D)) :
    proceed (some (a, .next)) k = k a := rfl

private theorem proceed_assoc (r : Option (α × Outcome D)) (k l : α → Option (α × Outcome D)) :
    proceed (proceed r k) l = proceed r fun a => proceed (k a) l := by
  obtain _ | ⟨a, _ | v⟩ := r <;> rfl

theorem proceed_stay (r : Option (α × Outcome D)) : proceed r (fun a => some (a, .next)) = r := by
  obtain _ | ⟨a, _ | v⟩ := r <;> rfl

namespace Interp

variable (I : Interp D)

def neighbours : List CmpOperator → List D → List D
  | op :: ops, a :: b :: more => I.comparison op a b :: neighbours ops (b :: more)
  | _, _ => []

def joined (op : BoolOperator) : List D → Option D
  | [] => none
  | d :: ds => some (ds.foldl (I.connective op) d)

end Interp

namespace Expr

mutual

def eval (I : Interp D) (env : String → Option D) : Expr → Option D
  | mk form _ =>
    match form with
    | .name id => env id
    | .constant value kind => some (I.constant value kind)
    | .binOp left op right => do return I.binary op (← left.eval I env) (← right.eval I env)
    | .unaryOp op e => do return I.unary op (← e.eval I env)
    | .boolOp op values => do I.joined op (← evalAll I env values)
    | .compare left ops comparators => do
      let first ← left.eval I env
      I.joined .and (I.neighbours ops (first :: (← evalAll I env comparators)))
    | .call func args keywords => do
      return I.call func.written (keywords.map Keyword.written) (← evalAll I env args)
    | _ => none
termination_by structural e => e

def evalAll (I : Interp D) (env : String → Option D) : List Expr → Option (List D)
  | [] => some []
  | e :: rest => do return (← e.eval I env) :: (← evalAll I env rest)
termination_by structural es => es

end

mutual

/-- The expressions that have a meaning: connectives join at least two values, comparisons have an
operand on each side, and calls unpack no arguments. -/
def supported : Expr → Bool
  | mk form _ =>
    match form with
    | .name _ => true
    | .constant _ _ => true
    | .binOp left _ right => left.supported && right.supported
    | .unaryOp _ e => e.supported
    | .boolOp _ values => decide (2 ≤ values.length) && supportedAll values
    | .compare left ops comparators =>
      decide (ops ≠ [] ∧ ops.length = comparators.length) &&
        (left.supported && supportedAll comparators)
    | .call _ args keywords => supportedAll args && keywords.all fun k => k.arg.isSome
    | _ => false
termination_by structural e => e

def supportedAll : List Expr → Bool
  | [] => true
  | e :: rest => e.supported && supportedAll rest
termination_by structural es => es

end

section Equations

variable (I : Interp D) (env : String → Option D) (span : Option Span)

theorem evalAll_cons (e : Expr) (es : List Expr) :
    evalAll I env (e :: es) = (e.eval I env).bind fun d => (evalAll I env es).map (d :: ·) := by
  show (do return (← e.eval I env) :: (← evalAll I env es)) = _
  cases e.eval I env <;> cases evalAll I env es <;> rfl

theorem eval_binOp (left right : Expr) (op : BinaryOperator) :
    (mk (.binOp left op right) span).eval I env =
      (left.eval I env).bind fun a => (right.eval I env).map (I.binary op a) := by
  show (do return I.binary op (← left.eval I env) (← right.eval I env)) = _
  cases left.eval I env <;> cases right.eval I env <;> rfl

theorem eval_unaryOp (op : UnaryOperator) (e : Expr) :
    (mk (.unaryOp op e) span).eval I env = (e.eval I env).map (I.unary op) := by
  show (do return I.unary op (← e.eval I env)) = _
  cases e.eval I env <;> rfl

theorem eval_boolOp (op : BoolOperator) (es : List Expr) :
    (mk (.boolOp op es) span).eval I env = (evalAll I env es).bind (I.joined op) := rfl

theorem eval_compare (left : Expr) (ops : List CmpOperator) (es : List Expr) :
    (mk (.compare left ops es) span).eval I env = (evalAll I env (left :: es)).bind fun ds =>
      I.joined .and (I.neighbours ops ds) := by
  show (do
    let first ← left.eval I env
    I.joined .and (I.neighbours ops (first :: (← evalAll I env es)))) = _
  rw [evalAll_cons]
  cases left.eval I env <;> cases evalAll I env es <;> rfl

theorem eval_call (func : Expr) (args : List Expr) (keywords : List Keyword) :
    (mk (.call func args keywords) span).eval I env =
      (evalAll I env args).map (I.call func.written (keywords.map Keyword.written)) := by
  show (do return I.call func.written (keywords.map Keyword.written) (← evalAll I env args)) = _
  cases evalAll I env args <;> rfl

end Equations

end Expr

/-- The variables of a running function, and the values of its expression statements so far. -/
structure Activation (D : Type u) where
  env : String → Option D
  trace : List D

def Activation.set (a : Activation D) (x : String) (d : D) : Activation D :=
  { a with env := Function.update a.env x (some d) }

namespace Stmt

mutual

def exec (I : Interp D) (a : Activation D) : Stmt → Option (Activation D × Outcome D)
  | mk form _ =>
    match form with
    | .ret none => some (a, .returned none)
    | .ret (some e) => do return (a, .returned (some (← e.eval I a.env)))
    | .assign [target] value => target.name?.bind fun x => do
      return (a.set x (← value.eval I a.env), .next)
    | .augAssign target op value => target.name?.bind fun x => do
      let d ← value.eval I a.env
      return (a.set x (I.binary op (← a.env x) d), .next)
    | .annAssign _ _ none _ => some (a, .next)
    | .annAssign target _ (some value) _ => target.name?.bind fun x => do
      return (a.set x (← value.eval I a.env), .next)
    | .ifElse test yes no => do
      let c ← test.eval I a.env
      if I.truth c then execAll I a yes else execAll I a no
    | .expr value => do return ({ a with trace := a.trace ++ [← value.eval I a.env] }, .next)
    | .pass => some (a, .next)
    | _ => none
termination_by structural s => s

def execAll (I : Interp D) (a : Activation D) : List Stmt → Option (Activation D × Outcome D)
  | [] => some (a, .next)
  | s :: rest => proceed (exec I a s) fun a => execAll I a rest
termination_by structural ss => ss

end

section Equations

variable (I : Interp D) (a : Activation D) (name : String) (e : Expr) (span at_ : Option Span)

theorem exec_ret : exec I a (mk (.ret (some e)) span) =
    (e.eval I a.env).map fun d => (a, .returned (some d)) := by
  show (do return (a, Outcome.returned (some (← e.eval I a.env)))) = _
  cases e.eval I a.env <;> rfl

theorem exec_expr : exec I a (mk (.expr e) span) =
    (e.eval I a.env).map fun d => ({ a with trace := a.trace ++ [d] }, .next) := by
  show (do return ({ a with trace := a.trace ++ [← e.eval I a.env] }, Outcome.next)) = _
  cases e.eval I a.env <;> rfl

theorem exec_assign : exec I a (mk (.assign [.mk (.name name) at_] e) span) =
    (e.eval I a.env).map fun d => (a.set name d, .next) := by
  show (do return (a.set name (← e.eval I a.env), Outcome.next)) = _
  cases e.eval I a.env <;> rfl

theorem exec_annAssign (annot : Expr) (simple : UInt8) :
    exec I a (mk (.annAssign (.mk (.name name) at_) annot (some e) simple) span) =
      (e.eval I a.env).map fun d => (a.set name d, .next) := by
  show (do return (a.set name (← e.eval I a.env), Outcome.next)) = _
  cases e.eval I a.env <;> rfl

theorem exec_augAssign (op : BinaryOperator) :
    exec I a (mk (.augAssign (.mk (.name name) at_) op e) span) =
      (e.eval I a.env).bind fun d => (a.env name).map fun old =>
        (a.set name (I.binary op old d), .next) := by
  show (do
    let d ← e.eval I a.env
    return (a.set name (I.binary op (← a.env name) d), Outcome.next)) = _
  cases e.eval I a.env <;> cases a.env name <;> rfl

theorem exec_ifElse (yes no : List Stmt) : exec I a (mk (.ifElse e yes no) span) =
    (e.eval I a.env).bind fun c => execAll I a (if I.truth c then yes else no) := by
  show (do
    let c ← e.eval I a.env
    if I.truth c then execAll I a yes else execAll I a no) = _
  cases e.eval I a.env with
  | none => rfl
  | some c => cases hc : I.truth c <;> simp [hc]

end Equations

mutual

/-- Statements without loops and definitions, which write to single names only and have supported
expressions. -/
def loopFree : Stmt → Bool
  | mk form _ =>
    match form with
    | .ret value => value.all Expr.supported
    | .assign [target] value => target.name?.isSome && value.supported
    | .augAssign target _ value => target.name?.isSome && value.supported
    | .annAssign target _ value _ => target.name?.isSome && value.all Expr.supported
    | .ifElse test yes no => test.supported && (loopFreeAll yes && loopFreeAll no)
    | .expr value => value.supported
    | .pass => true
    | _ => false
termination_by structural s => s

def loopFreeAll : List Stmt → Bool
  | [] => true
  | s :: rest => loopFree s && loopFreeAll rest
termination_by structural ss => ss

end

end Stmt

def Access.bound? : Access → Option String
  | read _ => none
  | bind name => some name
  | touch name => some name

namespace Function

variable (f : Function)

def bound : List String :=
  f.params.names ++ (Act.accessesAll (Stmt.actsAll true f.body)).filterMap Access.bound?

/-- What the names that a function does not bind stand for. -/
def outside (outer : String → Option D) (x : String) : Option D :=
  if x ∈ f.bound then none else outer x

/-- A call: the values of its expression statements and how it ends. -/
def invoke (I : Interp D) (outer : String → Option D) (args : List D) :
    Option (List D × Outcome D) :=
  if args.length = f.params.names.length then
    (Stmt.execAll I ⟨fun x => ((f.params.names.zip args).lookup x).or (f.outside outer x), []⟩
      f.body).map fun r => (r.1.trace, r.2)
  else none

end Function

/-- The values and the memory that operators run on. -/
structure Machine (D : Type u) where
  values : ValueId → Option D
  memory : String → Option D
  trace : List D

namespace Machine

variable (m : Machine D)

def define (v : ValueId) (d : D) : Machine D :=
  { m with values := Function.update m.values v (some d) }

def store (x : String) (d : D) : Machine D :=
  { m with memory := Function.update m.memory x (some d) }

def log (d : D) : Machine D := { m with trace := m.trace ++ [d] }

end Machine

def Attr.literal? : Attr → Option Literal
  | unit => some .none
  | bool b => some (.bool b)
  | int n => some (.int n)
  | bigInt digits => some (.bigInt digits)
  | float x => some (.float x)
  | text s => some (.text s)
  | _ => none

def Attr.text? : Attr → Option String
  | text s => some s
  | _ => none

@[simp] theorem Literal.literal?_attr (l : Literal) : l.attr.literal? = some l := by
  cases l <;> rfl

def BoolOperator.ofName? (s : String) : Option BoolOperator := all.find? (·.name = s)

@[simp] theorem BoolOperator.ofName?_name (op : BoolOperator) : ofName? op.name = some op := by
  cases op <;> rfl

def BinaryOperator.ofName? (s : String) : Option BinaryOperator := all.find? (·.name = s)

@[simp] theorem BinaryOperator.ofName?_name (op : BinaryOperator) : ofName? op.name = some op := by
  cases op <;> rfl

def CmpOperator.ofName? (s : String) : Option CmpOperator := all.find? (·.name = s)

@[simp] theorem CmpOperator.ofName?_name (op : CmpOperator) : ofName? op.name = some op := by
  cases op <;> rfl

def UnaryOperator.ofName? (s : String) : Option UnaryOperator := all.find? (·.name = s)

@[simp] theorem UnaryOperator.ofName?_name (op : UnaryOperator) : ofName? op.name = some op := by
  cases op <;> rfl

inductive Opcode where
  | constant
  | unaryOp
  | binOp
  | boolOp
  | compare
  | call
  | assign
  | cast
  | load
  | store
  | augAssign
  | annAssign
  | expr
  | pass
  | ret

namespace Opcode

def name : Opcode → String
  | constant => "constant"
  | unaryOp => "unaryOp"
  | binOp => "binOp"
  | boolOp => "boolOp"
  | compare => "compare"
  | call => "call"
  | assign => "assign"
  | cast => "cast"
  | load => "load"
  | store => "store"
  | augAssign => "augAssign"
  | annAssign => "annAssign"
  | expr => "expr"
  | pass => "pass"
  | ret => "return"

def all : List Opcode :=
  [constant, unaryOp, binOp, boolOp, compare, call, assign, cast, load, store, augAssign, annAssign,
    expr, pass, ret]

def ofName? (s : String) : Option Opcode := all.find? (·.name = s)

@[simp] theorem ofName?_name (c : Opcode) : ofName? c.name = some c := by
  cases c <;> rfl

end Opcode

namespace Head

variable (I : Interp D) (m : Machine D) (h : Head)

def text? (key : String) : Option String := (h.attrs.get? key).bind Attr.text?

def keywords? : Option (List String) :=
  match h.attrs.get? "keywords" with
  | none => some []
  | some (.list items) => items.mapM Attr.text?
  | some _ => none

def compute : Opcode → List D → Option D
  | .constant, [] => ((h.attrs.get? "value").bind Attr.literal?).map fun l =>
    I.constant l (h.text? "kind")
  | .unaryOp, [a] => ((h.text? "op").bind UnaryOperator.ofName?).map fun op => I.unary op a
  | .binOp, [a, b] => ((h.text? "op").bind BinaryOperator.ofName?).map fun op => I.binary op a b
  | .boolOp, [a, b] => ((h.text? "op").bind BoolOperator.ofName?).map fun op => I.connective op a b
  | .compare, [a, b] => ((h.text? "op").bind CmpOperator.ofName?).map fun op => I.comparison op a b
  | .call, ds => (h.text? "callee").bind fun callee => h.keywords?.map fun ks => I.call callee ks ds
  | .assign, [a] => some a
  | .cast, [a] => some a
  | _, _ => none

def finish (d : D) : Option (Machine D × Outcome D) :=
  match h.results with
  | [v] => some (m.define v d, .next)
  | _ => none

def perform : Opcode → List D → Option (Machine D × Outcome D)
  | .load, [] => (h.text? "name").bind fun x => (m.memory x).bind (h.finish m)
  | .store, [d] => (h.text? "name").map fun x => (m.store x d, .next)
  | .augAssign, [d] => (h.text? "target").bind fun x =>
    ((h.text? "op").bind BinaryOperator.ofName?).bind fun op =>
      (m.memory x).map fun old => (m.store x (I.binary op old d), .next)
  | .annAssign, [] => some (m, .next)
  | .expr, [d] => some (m.log d, .next)
  | .pass, [] => some (m, .next)
  | .ret, [] => some (m, .returned none)
  | .ret, [d] => some (m, .returned (some d))
  | c, ds => (h.compute I c ds).bind (h.finish m)

/-- What an operator without regions does. -/
def effect : Option (Machine D × Outcome D) :=
  (Opcode.ofName? h.name).bind fun c => (h.args.mapM m.values).bind (h.perform I m c)

private theorem effect_of_name (c : Opcode) (hname : h.name = c.name) :
    h.effect I m = (h.args.mapM m.values).bind (h.perform I m c) := by
  rw [effect, hname, Opcode.ofName?_name]
  rfl

section Effects

variable (v : ValueId) (ty : Ty) (x y : Operand) (name : String)

attribute [local simp] perform compute finish text? Attr.text?

theorem effect_constant (l : Literal) (kind : Option String) :
    ((match kind with
      | some k => ((Head.py "constant").withAttr "value" l.attr).withAttr "kind" (.text k)
      | none => (Head.py "constant").withAttr "value" l.attr).withResult v ty).effect I m =
      some (m.define v (I.constant l kind), .next) := by
  cases kind with
  | none =>
    rw [effect_of_name I m _ .constant rfl]
    simp [Attrs.get?_set_of_ne]
  | some k =>
    rw [effect_of_name I m _ .constant rfl]
    simp [Attrs.get?_set_of_ne]

theorem effect_unary (op : UnaryOperator) :
    ((((Head.py "unaryOp").withAttr "op" (.text op.name)).withArgs [x]).withResult v ty).effect I m =
      (m.values x.1).map fun a => (m.define v (I.unary op a), .next) := by
  rw [effect_of_name I m _ .unaryOp rfl]
  cases hx : m.values x.1 <;> simp [hx]

theorem effect_binary (op : BinaryOperator) :
    ((((Head.py "binOp").withAttr "op" (.text op.name)).withArgs [x, y]).withResult v ty).effect I m =
      ((m.values x.1).bind fun a => (m.values y.1).map (I.binary op a)).map fun d =>
        (m.define v d, .next) := by
  rw [effect_of_name I m _ .binOp rfl]
  cases hx : m.values x.1 <;> cases hy : m.values y.1 <;>
    simp [hx, hy]

theorem effect_boolHead (op : BoolOperator) :
    ((boolHead op x y).withResult v ty).effect I m =
      ((m.values x.1).bind fun a => (m.values y.1).map (I.connective op a)).map fun d =>
        (m.define v d, .next) := by
  rw [effect_of_name I m _ .boolOp rfl]
  cases hx : m.values x.1 <;> cases hy : m.values y.1 <;>
    simp [hx, hy, boolHead]

theorem effect_compareHead (op : CmpOperator) :
    ((compareHead op x y).withResult v ty).effect I m =
      ((m.values x.1).bind fun a => (m.values y.1).map (I.comparison op a)).map fun d =>
        (m.define v d, .next) := by
  rw [effect_of_name I m _ .compare rfl]
  cases hx : m.values x.1 <;> cases hy : m.values y.1 <;>
    simp [hx, hy, compareHead]

theorem effect_call {xs : List Operand} {callee : String} {ks : List String} (hname : h.name = "call")
    (hargs : h.args = xs.map Prod.fst) (hcallee : h.text? "callee" = some callee)
    (hks : h.keywords? = some ks) : (h.withResult v ty).effect I m =
      (xs.mapM fun x => m.values x.1).map fun ds => (m.define v (I.call callee ks ds), .next) := by
  have hcompute : ∀ ds, (h.withResult v ty).compute I .call ds = some (I.call callee ks ds) := by
    intro ds
    have hc : (h.withResult v ty).text? "callee" = some callee := hcallee
    have hk : (h.withResult v ty).keywords? = some ks := hks
    simp only [compute, hc, hk, Option.bind_some, Option.map_some]
  rw [effect_of_name I m (h.withResult v ty) .call hname, withResult_args, hargs, List.mapM_map,
    show m.values ∘ Prod.fst = fun x : Operand => m.values x.1 from rfl]
  cases hds : xs.mapM fun x => m.values x.1 with
  | none => simp
  | some ds => simp only [perform, hcompute, finish, Option.bind_some, Option.map_some, withResult_results]

theorem effect_copy (cast : Bool) :
    (((Head.py (if cast then "cast" else "assign")).withArgs [x]).withResult v ty).effect I m =
      (m.values x.1).map fun d => (m.define v d, .next) := by
  cases cast with
  | true =>
    rw [effect_of_name I m _ .cast rfl]
    cases hx : m.values x.1 <;> simp [hx]
  | false =>
    rw [effect_of_name I m _ .assign rfl]
    cases hx : m.values x.1 <;> simp [hx]

theorem effect_loadHead : (loadHead name v ty).effect I m =
    (m.memory name).map fun d => (m.define v d, .next) := by
  rw [effect_of_name I m _ .load rfl]
  cases hx : m.memory name <;> simp [hx, loadHead]

theorem effect_storeHead : (storeHead name v ty).effect I m =
    (m.values v).map fun d => (m.store name d, .next) := by
  rw [effect_of_name I m _ .store rfl]
  cases hx : m.values v <;> simp [hx, storeHead]

theorem effect_augHead (op : BinaryOperator) : (augHead name op x).effect I m =
    (m.values x.1).bind fun d => (m.memory name).map fun old =>
      (m.store name (I.binary op old d), .next) := by
  rw [effect_of_name I m _ .augAssign rfl]
  cases hx : m.values x.1 <;> cases hm : m.memory name <;>
    simp [hx, hm, augHead, Attrs.get?_set_of_ne]

theorem effect_fieldHead (target annot : Expr) (simple : UInt8) :
    (fieldHead target annot simple).effect I m = some (m, .next) := by
  rw [effect_of_name I m _ .annAssign rfl]
  rfl

theorem effect_pass : (Head.py "pass").effect I m = some (m, .next) := by
  rw [effect_of_name I m _ .pass rfl]
  rfl

theorem effect_expr : ((Head.py "expr").withArgs [x]).effect I m =
    (m.values x.1).map fun d => (m.log d, .next) := by
  rw [effect_of_name I m _ .expr rfl]
  cases hx : m.values x.1 <;> simp [hx]

theorem effect_return : (Head.py "return").effect I m = some (m, .returned none) := by
  rw [effect_of_name I m _ .ret rfl]
  rfl

theorem effect_return_value : ((Head.py "return").withArgs [x]).effect I m =
    (m.values x.1).map fun d => (m, .returned (some d)) := by
  rw [effect_of_name I m _ .ret rfl]
  cases hx : m.values x.1 <;> simp [hx]

end Effects

end Head

namespace Operator

mutual

/-- Runs an operator. A branch picks its region by the truth of its operand; where there is none, it
does nothing. -/
def run (I : Interp D) (m : Machine D) : Operator → Option (Machine D × Outcome D)
  | mk head regions =>
    if head.name = "if" then do
      match ← head.args.mapM m.values with
      | [c] => runNth I m (if I.truth c then 0 else 1) regions
      | _ => none
    else head.effect I m
termination_by structural o => o

def runNth (I : Interp D) (m : Machine D) (n : Nat) : List Region → Option (Machine D × Outcome D)
  | [] => some (m, .next)
  | .mk blocks :: rest =>
    match n with
    | 0 => runFirst I m blocks
    | n + 1 => runNth I m n rest
termination_by structural rs => rs

def runFirst (I : Interp D) (m : Machine D) : List Block → Option (Machine D × Outcome D)
  | [] => some (m, .next)
  | .mk _ items :: _ => runAll I m items
termination_by structural bs => bs

def runAll (I : Interp D) (m : Machine D) : List Operator → Option (Machine D × Outcome D)
  | [] => some (m, .next)
  | op :: rest => proceed (run I m op) fun m => runAll I m rest
termination_by structural os => os

end

theorem runAll_append (I : Interp D) (m : Machine D) (ops others : List Operator) :
    runAll I m (ops ++ others) = proceed (runAll I m ops) fun m => runAll I m others := by
  induction ops generalizing m with
  | nil => rfl
  | cons op ops ih =>
    rw [List.cons_append, runAll, runAll, proceed_assoc]
    congr 1
    funext m
    exact ih m

theorem run_leaf (I : Interp D) (m : Machine D) {h : Head} (hname : h.name ≠ "if") :
    run I m (leaf h) = h.effect I m := by
  rw [leaf, run, if_neg hname]

theorem runAll_singleton (I : Interp D) (m : Machine D) (op : Operator) :
    runAll I m [op] = run I m op := by
  rw [runAll]
  exact proceed_stay _

theorem run_branch (I : Interp D) (m : Machine D) (x : Operand) (regions : List Region) :
    run I m (mk ((Head.py "if").withArgs [x]) regions) =
      (m.values x.1).bind fun c => runNth I m (if I.truth c then 0 else 1) regions := by
  rw [run, if_pos (by simp)]
  cases hx : m.values x.1 <;> simp [hx]

theorem runNth_zero (I : Interp D) (m : Machine D) (label : Option Label) (ops : List Operator)
    (rest : List Region) : runNth I m 0 (.single label ops :: rest) = runAll I m ops := by
  rw [Region.single, runNth, runFirst]

theorem runNth_succ (I : Interp D) (m : Machine D) (n : Nat) (r : Region) (rest : List Region) :
    runNth I m (n + 1) (r :: rest) = runNth I m n rest := by
  obtain ⟨blocks⟩ := r
  rw [runNth]

/-- A call of a function operator: its entry block runs with the arguments as the parameters of its
label. The other ids have the values `entry` at first. -/
def invoke (I : Interp D) (entry : ValueId → Option D) (args : List D) :
    Operator → Option (List D × Outcome D)
  | mk _ (.mk (.mk (some label) items :: _) :: _) =>
    if args.length = label.params.length then
      (runAll I ⟨fun v => (((label.params.map Prod.fst).zip args).lookup v).or (entry v),
        fun _ => none, []⟩ items).map fun r => (r.1.trace, r.2)
    else none
  | _ => none

end Operator

def ValueId.plain? (v : ValueId) : Option String :=
  let x := String.ofList v.text.toList.tail
  if v = .named x ∧ PlainName x then some x else none

theorem ValueId.plain?_named {x : String} (hx : PlainName x) : (named x).plain? = some x := by
  have htail : String.ofList (named x).text.toList.tail = x := by
    simp [named, String.toList_append]
  simp [plain?, htail, hx]

theorem ValueId.plain?_of_counter {v : ValueId} {n : Nat} (h : v.counter? = some n) :
    v.plain? = none := by
  unfold plain?
  dsimp only
  split
  · rename_i hv
    rw [hv.1, counter?_named hv.2] at h
    simp at h
  · rfl

/-- The ids that stand for names which a function does not bind. -/
def Function.entry (f : Function) (outer : String → Option D) (v : ValueId) : Option D :=
  v.plain?.bind (f.outside outer)

end RegionIR
