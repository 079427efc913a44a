import RegionIR.Proofs.Runs
/-!
# Flattened expressions

Lowering an expression is a straight line of reads and operators. `Straight s reads hs pool t`
describes such a line: from the state `s` the names `reads` are read in this order, the operators `hs`
are appended to the current block, and `pool` holds the operands that no operator has consumed yet.
`Flat` is the same line with its types forgotten.
-/
namespace RegionIR

namespace Expr

mutual

/-- The names that an expression reads as operands, in the order of lowering. Callees, named arguments
and annotations are not operands. -/
def reads : Expr → List String
  | mk form _ =>
    match form with
    | .name id => [id]
    | .binOp left _ right => left.reads ++ right.reads
    | .unaryOp _ e => e.reads
    | .boolOp _ values => readsAll values
    | .compare left _ comparators => left.reads ++ readsAll comparators
    | .call _ args _ => readsAll args
    | _ => []
termination_by structural e => e

def readsAll : List Expr → List String
  | [] => []
  | e :: rest => e.reads ++ readsAll rest
termination_by structural es => es

end

end Expr

def loadHead (name : String) (value : ValueId) (ty : Ty) : Head :=
  ((Head.py "load").withAttr "name" (.text name)).withResult value ty

def computing : List String := ["constant", "binOp", "unaryOp", "boolOp", "compare", "call"]

structure Head.Computes (h : Head) : Prop where
  dialect : h.dialect = .py
  name : h.name ∈ computing
  results : h.results = []

def Head.operands (h : Head) : List Operand := h.args.zip h.argTypes

structure Head.Takes (h : Head) (xs : List Operand) : Prop where
  args : h.args = xs.map Prod.fst
  types : h.argTypes = xs.map Prod.snd

theorem Head.Takes.operands {h : Head} {xs : List Operand} (takes : h.Takes xs) : h.operands = xs := by
  rw [Head.operands, takes.args, takes.types, List.zip_map', List.map_id']

theorem State.read_memory {s : State} {name : String} (h : s.home name = .memory) :
    s.read name = ((.versioned name s.counter, s.typeOf name),
      (({ s with counter := s.counter + 1 }).emit
        (.ofHead (loadHead name (.versioned name s.counter) (s.typeOf name)))).record
          (.loaded name (.versioned name s.counter))) := by
  simp [State.read, h, State.freshVersion, State.number, loadHead]

/-- The value that a read gives while its variable is not in memory. -/
def Home.valueOf (name : String) : Home → ValueId
  | .pending _ value => value
  | _ => .named name

theorem State.read_of_ne_memory {s : State} {name : String} (h : s.home name ≠ .memory) :
    s.read name = (((s.home name).valueOf name, s.typeOf name), s) := by
  cases hh : s.home name with
  | undefined => simp [State.read, hh, Home.valueOf]
  | pending block value => simp [State.read, hh, Home.valueOf]
  | memory => exact absurd hh h

theorem boolHead_computes (op : BoolOperator) (left right : Operand) :
    (boolHead op left right).Computes := by
  constructor <;> simp [boolHead, computing]

theorem boolHead_takes (op : BoolOperator) (left right : Operand) :
    (boolHead op left right).Takes [left, right] := ⟨rfl, rfl⟩

private theorem compareHead_computes (op : CmpOperator) (left right : Operand) :
    (compareHead op left right).Computes := by
  constructor <;> simp [compareHead, computing]

private theorem compareHead_takes (op : CmpOperator) (left right : Operand) :
    (compareHead op left right).Takes [left, right] := ⟨rfl, rfl⟩

def constantHead (l : Literal) (kind : Option String) : Head :=
  let h := (Head.py "constant").withAttr "value" l.attr
  match kind with
  | some k => h.withAttr "kind" (.text k)
  | none => h

def binaryHead (op : BinaryOperator) (left right : Operand) : Head :=
  ((Head.py "binOp").withAttr "op" (.text op.name)).withArgs [left, right]

def unaryHead (op : UnaryOperator) (x : Operand) : Head :=
  ((Head.py "unaryOp").withAttr "op" (.text op.name)).withArgs [x]

theorem constantHead_computes (l : Literal) (kind : Option String) : (constantHead l kind).Computes := by
  cases kind <;> constructor <;> simp [constantHead, computing]

theorem constantHead_takes (l : Literal) (kind : Option String) : (constantHead l kind).Takes [] := by
  cases kind <;> exact ⟨rfl, rfl⟩

theorem binaryHead_computes (op : BinaryOperator) (left right : Operand) :
    (binaryHead op left right).Computes := by
  constructor <;> simp [binaryHead, computing]

theorem binaryHead_takes (op : BinaryOperator) (left right : Operand) :
    (binaryHead op left right).Takes [left, right] := ⟨rfl, rfl⟩

theorem unaryHead_computes (op : UnaryOperator) (x : Operand) : (unaryHead op x).Computes := by
  constructor <;> simp [unaryHead, computing]

theorem unaryHead_takes (op : UnaryOperator) (x : Operand) : (unaryHead op x).Takes [x] := ⟨rfl, rfl⟩

inductive Head.Calls (func : Expr) (values : List Operand) : List Keyword → Head → Prop
  | plain : Calls func values []
      (((Head.py "call").withAttr "callee" (.text func.written)).withArgs values)
  | named {k : Keyword} {ks : List Keyword} {attrs : List Attr}
      (written : namedArguments (k :: ks) = .ok attrs) : Calls func values (k :: ks)
      ((((Head.py "call").withAttr "callee" (.text func.written)).withArgs values).withAttr "keywords"
        (.list attrs))

namespace Head.Calls

variable {func : Expr} {values : List Operand} {keywords : List Keyword} {h : Head}

theorem computes (calls : Calls func values keywords h) : h.Computes := by
  cases calls <;> constructor <;> simp [computing]

theorem takes (calls : Calls func values keywords h) : h.Takes values := by
  cases calls <;> exact ⟨rfl, rfl⟩

theorem opcode (calls : Calls func values keywords h) : h.opcode = "py.call" := by
  cases calls <;> rfl

end Head.Calls

/-- Each operand is compared with the next one. -/
inductive Compares : List CmpOperator → List Operand → State → List Head → List Operand → State → Prop
  | last {op : CmpOperator} {left right x : Operand} {s t : State}
      (emit : s.emitResult (compareHead op left right) .unknown = (x, t)) :
      Compares [op] [left, right] s [(compareHead op left right).withResult x.1 .unknown] [x] t
  | cons {op : CmpOperator} {ops : List CmpOperator} {left right x : Operand} {more results : List Operand}
      {hs : List Head} {s s₁ t : State}
      (emit : s.emitResult (compareHead op left right) .unknown = (x, s₁))
      (rest : Compares ops (right :: more) s₁ hs results t) :
      Compares (op :: ops) (left :: right :: more) s
        ((compareHead op left right).withResult x.1 .unknown :: hs) (x :: results) t

/-- Values are joined by `and`, from the left. -/
inductive Conjoins : Operand → List Operand → State → List Head → Operand → State → Prop
  | nil {x : Operand} {s : State} : Conjoins x [] s [] x s
  | cons {first next joined x : Operand} {more : List Operand} {hs : List Head} {s s₁ t : State}
      (emit : s.emitResult (boolHead .and first next) .unknown = (joined, s₁))
      (rest : Conjoins joined more s₁ hs x t) :
      Conjoins first (next :: more) s ((boolHead .and first next).withResult joined.1 .unknown :: hs) x t

mutual

/-- `Flattens e s hs x t` is the derivation of lowering an expression: from the state `s` to the state `t`
the operators `hs` are appended, and `x` holds the value. Proofs about operands are inductions over it. -/
inductive Flattens : Expr → State → List Head → Operand → State → Prop
  | load {id : String} {span : Option Span} {s : State} (home : s.home id = .memory) :
      Flattens (.mk (.name id) span) s [loadHead id (.versioned id s.counter) (s.typeOf id)]
        (.versioned id s.counter, s.typeOf id) (s.read id).2
  | value {id : String} {span : Option Span} {s : State} (home : s.home id ≠ .memory) :
      Flattens (.mk (.name id) span) s [] ((s.home id).valueOf id, s.typeOf id) s
  | constant {lit : Literal} {kind : Option String} {span : Option Span} {s t : State} {x : Operand}
      (emit : s.emitResult (constantHead lit kind) lit.ty = (x, t)) :
      Flattens (.mk (.constant lit kind) span) s [(constantHead lit kind).withResult x.1 lit.ty] x t
  | binOp {left right : Expr} {op : BinaryOperator} {span : Option Span} {s s₁ s₂ t : State}
      {hs ks : List Head} {l r x : Operand} (first : Flattens left s hs l s₁)
      (second : Flattens right s₁ ks r s₂)
      (emit : s₂.emitResult (binaryHead op l r) .unknown = (x, t)) :
      Flattens (.mk (.binOp left op right) span) s
        (hs ++ ks ++ [(binaryHead op l r).withResult x.1 .unknown]) x t
  | unaryOp {e : Expr} {op : UnaryOperator} {span : Option Span} {s s₁ t : State} {hs : List Head}
      {y x : Operand} (operand : Flattens e s hs y s₁)
      (emit : s₁.emitResult (unaryHead op y) .unknown = (x, t)) :
      Flattens (.mk (.unaryOp op e) span) s (hs ++ [(unaryHead op y).withResult x.1 .unknown]) x t
  | boolOp {first second : Expr} {rest : List Expr} {op : BoolOperator} {span : Option Span}
      {s s₁ t : State} {hs ks : List Head} {a x : Operand} (operand : Flattens first s hs a s₁)
      (joined : FlattensJoined op a (second :: rest) s₁ ks x t) :
      Flattens (.mk (.boolOp op (first :: second :: rest)) span) s (hs ++ ks) x t
  | compare {left : Expr} {ops : List CmpOperator} {comparators : List Expr} {span : Option Span}
      {s s₁ s₂ s₃ t : State} {hs ks ls ms : List Head} {a x result : Operand} {rest more : List Operand}
      (even : ops.length = comparators.length) (operand : Flattens left s hs a s₁)
      (others : FlattensAll comparators s₁ ks rest s₂)
      (pairs : Compares ops (a :: rest) s₂ ls (result :: more) s₃)
      (joined : Conjoins result more s₃ ms x t) :
      Flattens (.mk (.compare left ops comparators) span) s (hs ++ ks ++ ls ++ ms) x t
  | call {func : Expr} {args : List Expr} {keywords : List Keyword} {span : Option Span} {s s₁ t : State}
      {hs : List Head} {values : List Operand} {h : Head} {x : Operand}
      (operands : FlattensAll args s hs values s₁) (calls : Head.Calls func values keywords h)
      (emit : s₁.emitResult h (Lower.callTy func s₁) = (x, t)) :
      Flattens (.mk (.call func args keywords) span) s (hs ++ [h.withResult x.1 (Lower.callTy func s₁)]) x t

/-- Each operand is joined to the value of those before it. -/
inductive FlattensJoined :
    BoolOperator → Operand → List Expr → State → List Head → Operand → State → Prop
  | nil {op : BoolOperator} {x : Operand} {s : State} : FlattensJoined op x [] s [] x s
  | cons {op : BoolOperator} {j y next x : Operand} {e : Expr} {rest : List Expr} {s s₁ s₂ t : State}
      {hs ks : List Head} (operand : Flattens e s hs y s₁)
      (emit : s₁.emitResult (boolHead op j y) .unknown = (next, s₂))
      (joined : FlattensJoined op next rest s₂ ks x t) :
      FlattensJoined op j (e :: rest) s (hs ++ (boolHead op j y).withResult next.1 .unknown :: ks) x t

inductive FlattensAll : List Expr → State → List Head → List Operand → State → Prop
  | nil {s : State} : FlattensAll [] s [] [] s
  | cons {e : Expr} {rest : List Expr} {s s₁ t : State} {hs ks : List Head} {x : Operand}
      {xs : List Operand} (operand : Flattens e s hs x s₁) (others : FlattensAll rest s₁ ks xs t) :
      FlattensAll (e :: rest) s (hs ++ ks) (x :: xs) t

end

theorem FlattensAll.length_eq {es : List Expr} {s t : State} {hs : List Head} {xs : List Operand}
    (h : FlattensAll es s hs xs t) : xs.length = es.length := by
  induction es generalizing s hs xs with
  | nil =>
    cases h
    rfl
  | cons e rest ih =>
    cases h with
    | cons _ others => simp [ih others]

namespace Lower

private theorem operands_of_arguments {es : List Expr} {xs : List Operand} {s s' : State}
    (run : Runs (arguments es) s xs s') : Runs (operands es) s xs s' := by
  induction es generalizing xs s s' with
  | nil => simpa only [arguments, operands] using run
  | cons e rest ih =>
    rw [arguments] at run
    split at run
    · simp at run
    · simp only [runs_bind, runs_pure] at run
      obtain ⟨x, s₁, hx, xs, s₂, hxs, rfl, rfl⟩ := run
      simp only [operands, runs_bind, runs_pure]
      exact ⟨x, s₁, hx, xs, _, ih hxs, rfl, rfl⟩

private theorem runs_call {func : Expr} {args : List Expr} {keywords : List Keyword} {span : Option Span}
    {s t : State} {x : Operand} (run : Runs (operand (.mk (.call func args keywords) span)) s x t) :
    ∃ values u h, Runs (operands args) s values u ∧ Head.Calls func values keywords h ∧
      u.emitResult h (callTy func u) = (x, t) := by
  simp only [operand, runs_bind, runs_get, runs_emitResult] at run
  obtain ⟨values, u, hvalues, h, u', hh, _, _, ⟨hget, hget'⟩, run⟩ := run
  rw [hget, hget'] at run
  cases keywords with
  | nil =>
    simp only [List.isEmpty_nil, if_true, runs_pure] at hh
    obtain ⟨rfl, rfl⟩ := hh
    exact ⟨values, _, _, operands_of_arguments hvalues, .plain, run⟩
  | cons k ks =>
    simp only [List.isEmpty_cons, Bool.false_eq_true, if_false, runs_bind, runs_ofExcept,
      runs_pure] at hh
    obtain ⟨attrs, _, ⟨written, rfl⟩, rfl, rfl⟩ := hh
    exact ⟨values, _, _, operands_of_arguments hvalues, .named written, run⟩

private theorem compares_of_comparePairs {ops : List CmpOperator} {xs results : List Operand}
    {s t : State}
    (run : Runs (comparePairs ops xs) s results t) (hlen : xs.length = ops.length + 1) (hpos : ops ≠ []) :
    ∃ hs, Compares ops xs s hs results t := by
  induction ops generalizing xs results s with
  | nil => exact absurd rfl hpos
  | cons op ops ih =>
    obtain _ | ⟨left, _ | ⟨right, more⟩⟩ := xs
    · simp at hlen
    · simp at hlen
    rw [comparePairs] at run
    simp only [runs_bind, runs_emitResult, runs_pure] at run
    obtain ⟨x, s₁, hx, rest, s₂, hrest, rfl, rfl⟩ := run
    cases ops with
    | nil =>
      obtain rfl : more = [] := by simpa using hlen
      simp only [comparePairs, runs_pure] at hrest
      obtain ⟨rfl, rfl⟩ := hrest
      exact ⟨_, .last hx⟩
    | cons op' ops =>
      obtain ⟨hs, pairs⟩ := ih hrest (by simpa using hlen) (by simp)
      exact ⟨_, .cons hx pairs⟩

private theorem conjoins_of_conjoin {first x : Operand} {rest : List Operand} {s t : State}
    (run : Runs (conjoin first rest) s x t) : ∃ hs, Conjoins first rest s hs x t := by
  induction rest generalizing first s with
  | nil =>
    simp only [conjoin, runs_pure] at run
    obtain ⟨rfl, rfl⟩ := run
    exact ⟨[], .nil⟩
  | cons next rest ih =>
    rw [conjoin] at run
    simp only [runs_bind, runs_emitResult] at run
    obtain ⟨joined, s₁, hj, run⟩ := run
    obtain ⟨hs, more⟩ := ih run
    exact ⟨_, .cons hj more⟩

private theorem flattens_of_read {id : String} {span : Option Span} {s t : State} {x : Operand}
    (run : s.read id = (x, t)) : ∃ hs, Flattens (.mk (.name id) span) s hs x t := by
  by_cases home : s.home id = .memory
  · have hread := State.read_memory home
    rw [run, Prod.mk.injEq] at hread
    obtain ⟨rfl, -⟩ := hread
    obtain rfl : t = (s.read id).2 := by rw [run]
    exact ⟨_, .load home⟩
  · rw [State.read_of_ne_memory home, Prod.mk.injEq] at run
    obtain ⟨rfl, rfl⟩ := run
    exact ⟨_, .value home⟩

mutual

/-- An expression that is lowered has a derivation. -/
theorem flattens_of_operand : (e : Expr) → {s t : State} → {x : Operand} → Runs (operand e) s x t →
    ∃ hs, Flattens e s hs x t
  | .mk (.name id) span, s, t, x, run => by
    simp only [operand, runs_read] at run
    exact flattens_of_read run
  | .mk (.constant lit kind) span, s, t, x, run => by
    simp only [operand, runs_emitResult] at run
    exact ⟨_, .constant run⟩
  | .mk (.binOp left op right) span, s, t, x, run => by
    simp only [operand, runs_bind, runs_emitResult] at run
    obtain ⟨l, s₁, hl, r, s₂, hr, run⟩ := run
    obtain ⟨hs, first⟩ := flattens_of_operand left hl
    obtain ⟨ks, second⟩ := flattens_of_operand right hr
    exact ⟨_, .binOp first second run⟩
  | .mk (.unaryOp op e) span, s, t, x, run => by
    simp only [operand, runs_bind, runs_emitResult] at run
    obtain ⟨y, s₁, hy, run⟩ := run
    obtain ⟨hs, operand⟩ := flattens_of_operand e hy
    exact ⟨_, .unaryOp operand run⟩
  | .mk (.boolOp op []) span, s, t, x, run => by simp [operand] at run
  | .mk (.boolOp op [_]) span, s, t, x, run => by simp [operand] at run
  | .mk (.boolOp op (first :: second :: rest)) span, s, t, x, run => by
    simp only [operand, runs_bind, runs_emitResult] at run
    obtain ⟨a, s₁, ha, b, s₂, hb, ab, s₃, hab, run⟩ := run
    obtain ⟨hs, left⟩ := flattens_of_operand first ha
    obtain ⟨ks, right⟩ := flattens_of_operand second hb
    obtain ⟨ls, joined⟩ := flattensJoined_of_joinAll op rest run
    exact ⟨_, .boolOp left (.cons right hab joined)⟩
  | .mk (.compare left ops comparators) span, s, t, x, run => by
    rw [operand] at run
    split at run
    · simp at run
    rename_i hguard
    simp only [not_or, List.isEmpty_iff, ne_eq, Decidable.not_not] at hguard
    obtain ⟨hpos, even⟩ := hguard
    simp only [runs_bind] at run
    obtain ⟨a, s₁, ha, rest, s₂, hrest, results, s₃, hresults, run⟩ := run
    obtain ⟨hs, first⟩ := flattens_of_operand left ha
    obtain ⟨ks, others⟩ := flattensAll_of_operands comparators hrest
    obtain ⟨ls, pairs⟩ := compares_of_comparePairs hresults (by simp [others.length_eq, even]) hpos
    obtain _ | ⟨result, more⟩ := results
    · simp at run
    obtain ⟨ms, joined⟩ := conjoins_of_conjoin run
    exact ⟨_, .compare even first others pairs joined⟩
  | .mk (.call func args keywords) span, s, t, x, run => by
    obtain ⟨values, u, h, hvalues, calls, run⟩ := runs_call run
    obtain ⟨hs, operands⟩ := flattensAll_of_operands args hvalues
    exact ⟨_, .call operands calls run⟩
  | .mk (.attr _ _) span, s, t, x, run => by simp [operand] at run
  | .mk (.subscript _ _) span, s, t, x, run => by simp [operand] at run
  | .mk (.starred _) span, s, t, x, run => by simp [operand] at run
  | .mk (.list _) span, s, t, x, run => by simp [operand] at run
  | .mk (.tuple _) span, s, t, x, run => by simp [operand] at run
  | .mk (.index _) span, s, t, x, run => by simp [operand] at run
  | .mk (.bare _) span, s, t, x, run => by simp [operand] at run

theorem flattensJoined_of_joinAll (op : BoolOperator) : (es : List Expr) → {s t : State} →
    {j x : Operand} → Runs (joinAll op j es) s x t → ∃ hs, FlattensJoined op j es s hs x t
  | [], s, t, j, x, run => by
    simp only [joinAll, runs_pure] at run
    obtain ⟨rfl, rfl⟩ := run
    exact ⟨[], .nil⟩
  | e :: rest, s, t, j, x, run => by
    simp only [joinAll, runs_bind, runs_emitResult] at run
    obtain ⟨y, s₁, hy, next, s₂, hnext, run⟩ := run
    obtain ⟨hs, operand⟩ := flattens_of_operand e hy
    obtain ⟨ks, joined⟩ := flattensJoined_of_joinAll op rest run
    exact ⟨_, .cons operand hnext joined⟩

theorem flattensAll_of_operands : (es : List Expr) → {s t : State} → {xs : List Operand} →
    Runs (operands es) s xs t → ∃ hs, FlattensAll es s hs xs t
  | [], s, t, xs, run => by
    simp only [operands, runs_pure] at run
    obtain ⟨rfl, rfl⟩ := run
    exact ⟨[], .nil⟩
  | e :: rest, s, t, xs, run => by
    simp only [operands, runs_bind, runs_pure] at run
    obtain ⟨x, s₁, hx, xs', s₂, hxs, rfl, rfl⟩ := run
    obtain ⟨hs, operand⟩ := flattens_of_operand e hx
    obtain ⟨ks, others⟩ := flattensAll_of_operands rest hxs
    exact ⟨_, .cons operand others⟩

end

end Lower

inductive Straight (s : State) : List String → List Head → List Operand → State → Prop
  | start : Straight s [] [] [] s
  | load {reads : List String} {hs : List Head} {pool : List Operand} {t : State} {name : String}
      (line : Straight s reads hs pool t) (home : t.home name = .memory) :
      Straight s (reads ++ [name])
        (hs ++ [loadHead name (.versioned name t.counter) (t.typeOf name)])
        ((.versioned name t.counter, t.typeOf name) :: pool) (t.read name).2
  | value {reads : List String} {hs : List Head} {pool : List Operand} {t : State} {name : String}
      (line : Straight s reads hs pool t) (home : t.home name ≠ .memory) :
      Straight s (reads ++ [name]) hs (((t.home name).valueOf name, t.typeOf name) :: pool) t
  | op {reads : List String} {hs : List Head} {pool xs : List Operand} {t : State} {h : Head} {ty : Ty}
      (line : Straight s reads hs pool t) (computes : h.Computes) (takes : h.Takes xs)
      (known : ∀ x ∈ xs, x ∈ pool) :
      Straight s reads (hs ++ [h.withResult (.numbered t.counter) ty])
        ((.numbered t.counter, ty) :: pool) (t.emitResult h ty).2
  /-- An operand may leave the pool once an operator has taken it. -/
  | drop {reads : List String} {hs : List Head} {pool left : List Operand} {t : State}
      (line : Straight s reads hs pool t) (known : ∀ x ∈ left, x ∈ pool)
      (used : ∀ x ∈ pool, x ∈ left ∨ ∃ h ∈ hs, x ∈ h.operands) : Straight s reads hs left t

namespace Straight

variable {s t t' : State} {reads : List String} {hs ks : List Head} {pool : List Operand}

private theorem emitResult (line : Straight s reads hs pool t) {h : Head} {ty : Ty} {x : Operand}
    {xs : List Operand} (emit : t.emitResult h ty = (x, t')) (computes : h.Computes)
    (takes : h.Takes xs) (known : ∀ y ∈ xs, y ∈ pool) :
    Straight s reads (hs ++ [h.withResult x.1 ty]) (x :: pool) t' := by
  obtain rfl : t' = (t.emitResult h ty).2 := by rw [emit]
  obtain rfl : x = (.numbered t.counter, ty) := (congrArg Prod.fst emit).symm
  exact line.op computes takes known

private theorem reduce (line : Straight s reads hs pool t) {h : Head} {ty : Ty} {x : Operand}
    {xs left : List Operand} (emit : t.emitResult h ty = (x, t')) (computes : h.Computes)
    (takes : h.Takes xs) (hpool : pool = xs.reverse ++ left) :
    Straight s reads (hs ++ [h.withResult x.1 ty]) (x :: left) t' := by
  subst hpool
  have htaken : (h.withResult x.1 ty).operands = xs := takes.operands
  have line' := line.emitResult emit computes takes fun y hy =>
    List.mem_append_left _ (List.mem_reverse.mpr hy)
  refine line'.drop ?_ ?_
  · intro y hy
    rcases List.mem_cons.mp hy with rfl | hy
    · exact List.mem_cons_self
    · exact List.mem_cons_of_mem _ (List.mem_append_right _ hy)
  · intro y hy
    rcases List.mem_cons.mp hy with rfl | hy
    · exact .inl List.mem_cons_self
    rcases List.mem_append.mp hy with hy | hy
    · exact .inr ⟨_, List.mem_append_right _ List.mem_cons_self, htaken ▸ List.mem_reverse.mp hy⟩
    · exact .inl (List.mem_cons_of_mem _ hy)

/-- Comparing neighbours takes every operand at least once and keeps them all in the pool. -/
theorem compares {ops : List CmpOperator} {xs results : List Operand}
    (pairs : Compares ops xs t ks results t') (line : Straight s reads hs pool t)
    (known : ∀ x ∈ xs, x ∈ pool) : Straight s reads (hs ++ ks) (results.reverse ++ pool) t' ∧
      ∀ x ∈ xs, ∃ h ∈ ks, x ∈ h.operands := by
  induction pairs generalizing hs pool with
  | @last op left right x s t emit =>
    have htaken : ((compareHead op left right).withResult x.1 .unknown).operands = [left, right] :=
      (compareHead_takes op left right).operands
    exact ⟨line.emitResult emit (compareHead_computes op left right) (compareHead_takes op left right) known,
      fun y hy => ⟨_, List.mem_cons_self, htaken ▸ hy⟩⟩
  | @cons op ops left right x more results ks s s₁ t emit rest ih =>
    have htaken : ((compareHead op left right).withResult x.1 .unknown).operands = [left, right] :=
      (compareHead_takes op left right).operands
    have line₁ := line.emitResult emit (compareHead_computes op left right)
      (compareHead_takes op left right) fun y hy => known y (by
        rcases List.mem_pair.mp hy with rfl | rfl <;> simp)
    obtain ⟨line₂, hused⟩ := ih line₁ fun y hy =>
      List.mem_cons_of_mem _ (known y (List.mem_cons_of_mem _ hy))
    refine ⟨by simpa using line₂, fun y hy => ?_⟩
    rcases List.mem_cons.mp hy with rfl | hy
    · exact ⟨_, List.mem_cons_self, by simp [htaken]⟩
    · obtain ⟨h, hh, hv⟩ := hused y hy
      exact ⟨h, List.mem_cons_of_mem _ hh, hv⟩

/-- Joining takes every operand but the one it gives back. -/
theorem conjoins {first x : Operand} {rest : List Operand} (joined : Conjoins first rest t ks x t')
    (line : Straight s reads hs pool t) (known : ∀ y ∈ first :: rest, y ∈ pool) :
    Straight s reads (hs ++ ks) (x :: pool) t' ∧
      ∀ y ∈ first :: rest, y = x ∨ ∃ h ∈ ks, y ∈ h.operands := by
  induction joined generalizing hs pool with
  | @nil x s =>
    refine ⟨?_, by simp⟩
    rw [List.append_nil]
    refine line.drop (fun y hy => ?_) fun y hy => .inl (List.mem_cons_of_mem _ hy)
    rcases List.mem_cons.mp hy with rfl | hy
    · exact known y List.mem_cons_self
    · exact hy
  | @cons first next joined x more ks s s₁ t emit rest ih =>
    have htaken : ((boolHead .and first next).withResult joined.1 .unknown).operands = [first, next] :=
      (boolHead_takes .and first next).operands
    have line₁ := line.emitResult emit (boolHead_computes .and first next)
      (boolHead_takes .and first next) fun y hy => known y (by
        rcases List.mem_pair.mp hy with rfl | rfl <;> simp)
    obtain ⟨line₂, hused⟩ := ih line₁ fun y hy => by
      rcases List.mem_cons.mp hy with rfl | hy
      · exact List.mem_cons_self
      · exact List.mem_cons_of_mem _ (known y (by simp [hy]))
    constructor
    · rw [List.append_assoc, List.singleton_append] at line₂
      refine line₂.drop ?_ ?_
      · intro y hy
        rcases List.mem_cons.mp hy with rfl | hy
        · exact List.mem_cons_self
        · exact List.mem_cons_of_mem _ (List.mem_cons_of_mem _ hy)
      · intro y hy
        rcases List.mem_cons.mp hy with rfl | hy
        · exact .inl List.mem_cons_self
        rcases List.mem_cons.mp hy with rfl | hy
        · rcases hused y List.mem_cons_self with rfl | ⟨h, hh, hv⟩
          · exact .inl List.mem_cons_self
          · exact .inr ⟨h, by simp [hh], hv⟩
        · exact .inl (List.mem_cons_of_mem _ hy)
    · intro y hy
      have hy : y ∈ [first, next] ∨ y ∈ more := by simpa [or_assoc] using hy
      rcases hy with hy | hy
      · exact .inr ⟨_, List.mem_cons_self, htaken ▸ hy⟩
      · rcases hused y (List.mem_cons_of_mem _ hy) with rfl | ⟨h, hh, hv⟩
        · exact .inl rfl
        · exact .inr ⟨h, List.mem_cons_of_mem _ hh, hv⟩

private theorem chain {ops : List CmpOperator} {rest more : List Operand} {a result x : Operand}
    {u : State} {ls : List Head} (line : Straight s reads hs (rest.reverse ++ a :: pool) t)
    (pairs : Compares ops (a :: rest) t ks (result :: more) u) (joined : Conjoins result more u ls x t') :
    Straight s reads (hs ++ ks ++ ls) (x :: pool) t' := by
  rw [show rest.reverse ++ a :: pool = (a :: rest).reverse ++ pool by simp] at line
  obtain ⟨line₁, hused⟩ := compares pairs line fun y hy =>
    List.mem_append_left _ (List.mem_reverse.mpr hy)
  obtain ⟨line₂, hjoined⟩ := conjoins joined line₁ fun y hy =>
    List.mem_append_left _ (List.mem_reverse.mpr hy)
  refine line₂.drop (by simp +contextual) fun y hy => ?_
  rcases List.mem_cons.mp hy with rfl | hy
  · exact .inl List.mem_cons_self
  rcases List.mem_append.mp hy with hy | hy
  · rcases hjoined y (List.mem_reverse.mp hy) with rfl | ⟨h, hh, hv⟩
    · exact .inl List.mem_cons_self
    · exact .inr ⟨h, List.mem_append_right _ hh, hv⟩
  rcases List.mem_append.mp hy with hy | hy
  · obtain ⟨h, hh, hv⟩ := hused y (List.mem_reverse.mp hy)
    exact .inr ⟨h, by simp [hh], hv⟩
  · exact .inl (List.mem_cons_of_mem _ hy)

end Straight

mutual

theorem Flattens.straight {s : State} : {e : Expr} → {t t' : State} → {ks : List Head} → {x : Operand} →
    Flattens e t ks x t' → ∀ {reads : List String} {hs : List Head} {pool : List Operand},
    Straight s reads hs pool t → Straight s (reads ++ e.reads) (hs ++ ks) (x :: pool) t'
  | _, _, _, _, _, .load home, reads, hs, pool, line => by
    rw [Expr.reads]
    exact line.load home
  | _, _, _, _, _, .value home, reads, hs, pool, line => by
    rw [Expr.reads, List.append_nil]
    exact line.value home
  | _, _, _, _, _, .constant emit, reads, hs, pool, line => by
    simp only [Expr.reads, List.append_nil]
    exact line.reduce emit (constantHead_computes _ _) (constantHead_takes _ _) rfl
  | _, _, _, _, _, .binOp first second emit, reads, hs, pool, line => by
    have hline := (second.straight (first.straight line)).reduce emit (binaryHead_computes _ _ _)
      (binaryHead_takes _ _ _) rfl
    simpa only [Expr.reads, List.append_assoc] using hline
  | _, _, _, _, _, .unaryOp operand emit, reads, hs, pool, line => by
    have hline := (operand.straight line).reduce emit (unaryHead_computes _ _) (unaryHead_takes _ _) rfl
    simpa only [Expr.reads, List.append_assoc] using hline
  | _, _, _, _, _, .boolOp operand joined, reads, hs, pool, line => by
    have hline := joined.straight (operand.straight line)
    simpa only [Expr.reads, Expr.readsAll, List.append_assoc] using hline
  | _, _, _, _, _, .compare _ operand others pairs joined, reads, hs, pool, line => by
    have hline := (others.straight (operand.straight line)).chain pairs joined
    simpa only [Expr.reads, List.append_assoc] using hline
  | _, _, _, _, _, .call operands calls emit, reads, hs, pool, line => by
    have hline := (operands.straight line).reduce emit calls.computes calls.takes rfl
    simpa only [Expr.reads, List.append_assoc] using hline

theorem FlattensJoined.straight {s : State} : {op : BoolOperator} → {j : Operand} → {es : List Expr} →
    {t t' : State} → {ks : List Head} → {x : Operand} → FlattensJoined op j es t ks x t' →
    ∀ {reads : List String} {hs : List Head} {pool : List Operand}, Straight s reads hs (j :: pool) t →
    Straight s (reads ++ Expr.readsAll es) (hs ++ ks) (x :: pool) t'
  | _, _, _, _, _, _, _, .nil, reads, hs, pool, line => by
    simpa only [Expr.readsAll, List.append_nil] using line
  | _, _, _, _, _, _, _, .cons operand emit joined, reads, hs, pool, line => by
    have hnext := (operand.straight line).reduce emit (boolHead_computes _ _ _)
      (boolHead_takes _ _ _) rfl
    simpa only [Expr.readsAll, List.append_assoc, List.singleton_append] using joined.straight hnext

theorem FlattensAll.straight {s : State} : {es : List Expr} → {t t' : State} → {ks : List Head} →
    {xs : List Operand} → FlattensAll es t ks xs t' →
    ∀ {reads : List String} {hs : List Head} {pool : List Operand}, Straight s reads hs pool t →
    Straight s (reads ++ Expr.readsAll es) (hs ++ ks) (xs.reverse ++ pool) t'
  | _, _, _, _, _, .nil, reads, hs, pool, line => by
    simpa [Expr.readsAll] using line
  | _, _, _, _, _, .cons operand others, reads, hs, pool, line => by
    simpa [Expr.readsAll] using others.straight (operand.straight line)

end

namespace Lower

theorem straight_of_operand {s t : State} {e : Expr} {x : Operand} (run : Runs (operand e) s x t) :
    ∃ hs, Straight s e.reads hs [x] t := by
  obtain ⟨hs, flattens⟩ := flattens_of_operand e run
  exact ⟨hs, flattens.straight .start⟩

theorem straight_of_operands {s t : State} {es : List Expr} {xs : List Operand}
    (run : Runs (operands es) s xs t) : ∃ hs, Straight s (Expr.readsAll es) hs xs.reverse t := by
  obtain ⟨hs, flattens⟩ := flattensAll_of_operands es run
  exact ⟨hs, by simpa using flattens.straight .start⟩

end Lower

inductive Flat (s : State) : List String → List Head → List ValueId → State → Prop
  | start : Flat s [] [] [] s
  | load {reads : List String} {hs : List Head} {pool : List ValueId} {t : State} {name : String}
      (flat : Flat s reads hs pool t) (home : t.home name = .memory) :
      Flat s (reads ++ [name])
        (hs ++ [loadHead name (.versioned name t.counter) (t.typeOf name)])
        (.versioned name t.counter :: pool) (t.read name).2
  | value {reads : List String} {hs : List Head} {pool : List ValueId} {t : State} {name : String}
      (flat : Flat s reads hs pool t) (home : t.home name ≠ .memory) :
      Flat s (reads ++ [name]) hs ((t.home name).valueOf name :: pool) t
  | op {reads : List String} {hs : List Head} {pool : List ValueId} {t : State} {h : Head} {ty : Ty}
      (flat : Flat s reads hs pool t) (computes : h.Computes) (known : ∀ v ∈ h.args, v ∈ pool) :
      Flat s reads (hs ++ [h.withResult (.numbered t.counter) ty]) (.numbered t.counter :: pool)
        (t.emitResult h ty).2
  /-- A value may leave the pool once an operator has taken it. -/
  | drop {reads : List String} {hs : List Head} {pool left : List ValueId} {t : State}
      (flat : Flat s reads hs pool t) (known : ∀ v ∈ left, v ∈ pool)
      (used : ∀ v ∈ pool, v ∈ left ∨ ∃ h ∈ hs, v ∈ h.args) : Flat s reads hs left t

theorem Straight.flat {s t : State} {reads : List String} {hs : List Head} {pool : List Operand}
    (line : Straight s reads hs pool t) : Flat s reads hs (pool.map Prod.fst) t := by
  induction line with
  | start => exact .start
  | load line home ih => exact ih.load home
  | value line home ih => exact ih.value home
  | op line computes takes known ih =>
    refine ih.op computes ?_
    rw [takes.args]
    exact fun v hv => List.map_subset _ known hv
  | drop line known used ih =>
    refine ih.drop (List.map_subset _ known) ?_
    intro v hv
    obtain ⟨x, hx, rfl⟩ := List.mem_map.mp hv
    rcases used x hx with hleft | ⟨h, hh, htaken⟩
    · exact .inl (List.mem_map_of_mem hleft)
    · exact .inr ⟨h, hh, (List.of_mem_zip htaken).1⟩

end RegionIR
