import RegionIR.Proofs.Flat
/-!
# How a program is lowered

`Lowers s stmts s'` is the derivation of a successful pass over statements, from the state `s` to the
state `s'`. A simple statement becomes one operator without regions, a compound one owns regions for
its bodies, and a function opens a scope of its own. Proofs about a pass are inductions over it.
-/
namespace RegionIR

open Lower (Runs)

def augHead (name : String) (op : BinaryOperator) (x : Operand) : Head :=
  (((Head.py "augAssign").withAttr "target" (.text name)).withAttr "op" (.text op.name)).withArgs [x]

def fieldHead (target annot : Expr) (simple : UInt8) : Head :=
  (((Head.py "annAssign").withAttr "target" (.text target.written)).withAttr
    "annotation" (.text annot.written)).withAttr "simple" (.bool (simple != 0))

def classHead (name : String) (bases : List Expr) (keywords : List Keyword) (decorators : List Expr) :
    Head :=
  ((((Head.py "class").withAttr "name" (.text name)).withAttr "bases" (writtenList bases)).withAttr
    "keywords" (.list (keywords.map fun k => .text k.written))).withAttr
    "decorators" (writtenList decorators)

def functionHead (name : String) (decorators : List Expr) (formals : List (ValueId × Ty))
    (result : Ty) : Head :=
  let h := (Head.builtin "func").withAttr "sym_name" (.text name)
  let h := if decorators.isEmpty then h else h.withAttr "decorators" (writtenList decorators)
  h.withAttr "function_type" (.functionType (formals.map Prod.snd) result)

theorem functionHead_opcode (name : String) (decorators : List Expr) (formals : List (ValueId × Ty))
    (result : Ty) : (functionHead name decorators formals result).dialect = .builtin ∧
      (functionHead name decorators formals result).name = "func" := by
  unfold functionHead
  dsimp only
  split <;> exact ⟨rfl, rfl⟩

@[simp] theorem functionHead_results (name : String) (decorators : List Expr)
    (formals : List (ValueId × Ty)) (result : Ty) :
    (functionHead name decorators formals result).results = [] := by
  unfold functionHead
  dsimp only
  split <;> rfl

@[simp] theorem functionHead_args (name : String) (decorators : List Expr)
    (formals : List (ValueId × Ty)) (result : Ty) :
    (functionHead name decorators formals result).args = [] := by
  unfold functionHead
  dsimp only
  split <;> rfl

/-- The bodies of a branch; an empty alternative has no region. -/
def branches (yes no : List Stmt) : List (List Stmt) := if no.isEmpty then [yes] else [yes, no]

def State.declareTarget (s : State) (target annot : Expr) : State :=
  match target.name? with
  | some name => s.declare name annot.annotatedTy
  | none => s

theorem Expr.eq_name_of_name? {e : Expr} {name : String} (h : e.name? = some name) :
    ∃ span, e = .mk (.name name) span := by
  obtain ⟨form, span⟩ := e
  cases form <;> simp [Expr.name?] at h
  exact ⟨span, by rw [h]⟩

/-- A statement whose operator has no regions: the operator, and the state just before it is appended. -/
inductive Simple : State → Stmt → Head → State → Prop
  | ret {s t : State} {value : Option Expr} {xs : List Operand} {span : Option Span}
      (run : Runs (Lower.operands value.toList) s xs t) :
      Simple s (.mk (.ret value) span) ((Head.py "return").withArgs xs) t
  | expr {s t : State} {value : Expr} {x : Operand} {span : Option Span}
      (run : Runs (Lower.operand value) s x t) :
      Simple s (.mk (.expr value) span) ((Head.py "expr").withArgs [x]) t
  | pass {s : State} {span : Option Span} : Simple s (.mk .pass span) (Head.py "pass") s
  | breakLoop {s : State} {span : Option Span} : Simple s (.mk .breakLoop span) (Head.py "break") s
  | continueLoop {s : State} {span : Option Span} :
      Simple s (.mk .continueLoop span) (Head.py "continue") s
  | declare {s t : State} {target annot : Expr} {value : Option Expr} {simple : UInt8}
      {xs : List Operand} {span : Option Span}
      (site : if s.inFunction then target.name?.isSome ∧ value = none else True)
      (run : Runs (Lower.operands value.toList) (s.declareTarget target annot) xs t) :
      Simple s (.mk (.annAssign target annot value simple) span)
        ((fieldHead target annot simple).withArgs xs) t
  | assign {s t : State} {name : String} {value : Expr} {x : Operand} {at_ span : Option Span}
      (run : Runs (Lower.operand value) s x t) :
      Simple s (.mk (.assign [.mk (.name name) at_] value) span) (t.assign name x none).1
        (t.assign name x none).2
  | annotate {s t : State} {name : String} {annot value : Expr} {simple : UInt8} {x : Operand}
      {at_ span : Option Span} (site : s.inFunction = true)
      (run : Runs (Lower.operand value) s x t) :
      Simple s (.mk (.annAssign (.mk (.name name) at_) annot (some value) simple) span)
        (t.assign name x (some annot.annotatedTy)).1 (t.assign name x (some annot.annotatedTy)).2
  | augAssign {s t : State} {name : String} {op : BinaryOperator} {value : Expr} {x : Operand}
      {at_ span : Option Span} (run : Runs (Lower.operand value) s x t) :
      Simple s (.mk (.augAssign (.mk (.name name) at_) op value) span) (augHead name op x)
        (t.writeThrough name)

/-- A region that yields the value of an expression, opened in `s` and left in `s'`. -/
def YieldRegion (s : State) (e : Expr) (x : Operand) (t s' : State) : Prop :=
  Runs (Lower.operand e) s.enter x t ∧
    (t.emit (.ofHead ((Head.py "yield").withArgs [x]))).leave? s.blocks.length = some s'

/-- A statement that owns regions for its bodies: its operator, the regions it has before those, the
bodies, the state in which they start, and what is done after them. -/
inductive Opens : State → Stmt → Head → List Slot → List (List Stmt) → State → (State → State) → Prop
  | branch {s t : State} {test : Expr} {yes no : List Stmt} {x : Operand} {span : Option Span}
      (run : Runs (Lower.operand test) s x t) :
      Opens s (.mk (.ifElse test yes no) span) ((Head.py "if").withArgs [x]) [] (branches yes no) t id
  | whileDo {s t u : State} {test : Expr} {stmts : List Stmt} {x : Operand} {span : Option Span}
      (region : YieldRegion s test x u t) :
      Opens s (.mk (.whileDo test stmts []) span) (Head.py "while") [⟨s.blocks.length, none⟩] [stmts]
        t id
  | forIn {s t u : State} {name : String} {iter : Expr} {stmts : List Stmt} {x : Operand}
      {at_ span : Option Span} (region : YieldRegion s iter x u t) :
      Opens s (.mk (.forIn (.mk (.name name) at_) iter stmts []) span)
        ((Head.py "for").withAttr "target" (.text name)) [⟨s.blocks.length, none⟩] [stmts]
        (t.writeThrough name) id
  | classDef {s : State} {name : String} {bases : List Expr} {keywords : List Keyword}
      {stmts : List Stmt} {decorators : List Expr} {span : Option Span} :
      Opens s (.mk (.classDef name bases keywords stmts decorators) span)
        (classHead name bases keywords decorators) [] [stmts] s.pushClass State.popClass

mutual

inductive Lowers : State → List Stmt → State → Prop
  | nil {s : State} : Lowers s [] s
  | simple {s t s' : State} {st : Stmt} {own : Head} {stmts : List Stmt} (one : Simple s st own t)
      (rest : Lowers (t.emit (.ofHead own)) stmts s') : Lowers s (st :: stmts) s'
  | compound {s t u s' : State} {st : Stmt} {own : Head} {slots more : List Slot}
      {bodies : List (List Stmt)} {close : State → State} {stmts : List Stmt}
      (opens : Opens s st own slots bodies t close) (regions : LowersBodies t bodies more u)
      (rest : Lowers ((close u).emit (.ofHead own (slots ++ more))) stmts s') :
      Lowers s (st :: stmts) s'
  | function {s t u v s' : State} {name : String} {params : Params} {body stmts : List Stmt}
      {decorators : List Expr} {returns : Option Expr} {span : Option Span}
      {formals : List (ValueId × Ty)} (accepted : params.refused? = none)
      (bind : Runs (Lower.bindParams s.blocks.length params.plain)
        ((s.declare name (annotatedTy? returns)).pushFunction.enter) formals t)
      (inner : Lowers t body u) (leave : u.leave? s.blocks.length = some v)
      (rest : Lowers (v.popFunction.emit
        (.ofHead (functionHead name decorators formals (annotatedTy? returns))
          [⟨s.blocks.length, some ⟨entryLabel, formals⟩⟩])) stmts s') :
      Lowers s (.mk (.functionDef name params body decorators returns) span :: stmts) s'

inductive LowersBodies : State → List (List Stmt) → List Slot → State → Prop
  | nil {s : State} : LowersBodies s [] [] s
  | cons {s t u s' : State} {stmts : List Stmt} {bodies : List (List Stmt)} {slots : List Slot}
      (inner : Lowers s.enter stmts t) (leave : t.leave? s.blocks.length = some u)
      (rest : LowersBodies u bodies slots s') :
      LowersBodies s (stmts :: bodies) (⟨s.blocks.length, none⟩ :: slots) s'

end

private theorem Lowers.of_simple {s t s' : State} {st : Stmt} {own : Head} {op : Staged}
    {stmts : List Stmt}
    (one : Simple s st own t) (hop : op = .ofHead own) (rest : Lowers (t.emit op) stmts s') :
    Lowers s (st :: stmts) s' := by
  subst hop
  exact .simple one rest

namespace Lower

theorem runs_operands_singleton {e : Expr} {s s' : State} {x : Operand} (run : Runs (operand e) s x s') :
    Runs (operands [e]) s [x] s' := by
  simp only [operands, runs_bind, runs_pure]
  exact ⟨x, s', run, [], s', ⟨rfl, rfl⟩, rfl, rfl⟩

theorem runs_operands_nil {s : State} : Runs (operands []) s [] s := by
  simp [operands]

theorem runs_targetName {target : Expr} {span : Option Span} {refusal : String → Construct}
    {s s' : State} {name : String} :
    Runs (targetName target span refusal) s name s' ↔ target.name? = some name ∧ s' = s := by
  unfold targetName
  cases h : target.name? with
  | none => simp
  | some n =>
    simp only [runs_pure, Option.some.injEq]
    exact ⟨fun h => ⟨h.1.symm, h.2⟩, fun h => ⟨h.1.symm, h.2⟩⟩

private theorem runs_assignment {name : String} {value : Expr} {declared : Option Ty} {s s' : State}
    {op : Staged} (run : Runs (assignment name value declared) s op s') :
    ∃ x t, Runs (operand value) s x t ∧ op = .ofHead (t.assign name x declared).1 ∧
      s' = (t.assign name x declared).2 := by
  simp only [assignment, runs_bind, runs_step, runs_pure] at run
  obtain ⟨x, t, hx, h, t', ht, rfl, rfl⟩ := run
  exact ⟨x, t, hx, by rw [ht], by rw [ht]⟩

theorem runs_exprRegion {e : Expr} {s s' : State} {slot : Slot} (run : Runs (exprRegion e) s slot s') :
    slot = ⟨s.blocks.length, none⟩ ∧ ∃ x t, YieldRegion s e x t s' := by
  simp only [exprRegion, runs_bind, runs_inBlock, runs_emit, runs_pure] at run
  obtain ⟨⟨block, u⟩, s₁, ⟨hb, t, ⟨x, t₁, hx, rfl⟩, hl⟩, rfl, rfl⟩ := run
  exact ⟨by rw [← hb], x, t₁, hx, hl⟩

theorem runs_region {step : Lower Unit} {s s' : State} {slot : Slot}
    (run : Runs (region step) s slot s') :
    slot = ⟨s.blocks.length, none⟩ ∧ ∃ t, Runs step s.enter () t ∧
      t.leave? s.blocks.length = some s' := by
  simp only [region, runs_bind, runs_inBlock, runs_pure] at run
  obtain ⟨⟨block, u⟩, s₁, ⟨hb, t, ht, hl⟩, rfl, rfl⟩ := run
  exact ⟨by rw [← hb], t, ht, hl⟩

private theorem runs_fieldDeclaration {target annot : Expr} {value : Option Expr} {simple : UInt8}
    {s s' : State} {op : Staged} (run : Runs (fieldDeclaration target annot value simple) s op s') :
    ∃ xs, Runs (operands value.toList) (s.declareTarget target annot) xs s' ∧
      op = .ofHead ((fieldHead target annot simple).withArgs xs) := by
  unfold fieldDeclaration at run
  unfold State.declareTarget
  cases hname : target.name? with
  | none =>
    cases value with
    | none =>
      simp only [hname, runs_pure] at run
      obtain ⟨rfl, rfl⟩ := run
      exact ⟨[], runs_operands_nil, rfl⟩
    | some e =>
      simp only [hname, runs_bind, runs_pure] at run
      obtain ⟨x, t, hx, rfl, rfl⟩ := run
      exact ⟨[x], runs_operands_singleton hx, rfl⟩
  | some name =>
    cases value with
    | none =>
      simp only [hname, runs_bind, runs_modify, runs_pure] at run
      obtain ⟨_, _, rfl, rfl, rfl⟩ := run
      exact ⟨[], runs_operands_nil, rfl⟩
    | some e =>
      simp only [hname, runs_bind, runs_modify, runs_pure] at run
      obtain ⟨_, _, rfl, x, t, hx, rfl, rfl⟩ := run
      exact ⟨[x], runs_operands_singleton hx, rfl⟩

private theorem runs_annotated {target annot : Expr} {value : Option Expr} {simple : UInt8}
    {span at_ : Option Span} {s s' : State} {op : Staged}
    (run : Runs (annotated target annot value simple span) s op s') :
    ∃ own, op = .ofHead own ∧ Simple s (.mk (.annAssign target annot value simple) at_) own s' := by
  simp only [annotated, runs_bind, runs_get] at run
  obtain ⟨_, _, ⟨hget, hget'⟩, run⟩ := run
  rw [hget, hget'] at run
  by_cases site : s.inFunction = true
  · simp only [site, if_true, runs_bind, runs_targetName] at run
    obtain ⟨name, _, ⟨hname, rfl⟩, run⟩ := run
    obtain ⟨at_, rfl⟩ := Expr.eq_name_of_name? hname
    cases value with
    | none =>
      obtain ⟨xs, hxs, rfl⟩ := runs_fieldDeclaration run
      exact ⟨_, rfl, .declare (by simp [site, hname]) hxs⟩
    | some e =>
      obtain ⟨x, t, hx, rfl, rfl⟩ := runs_assignment run
      exact ⟨_, rfl, .annotate site hx⟩
  · simp only [site] at run
    obtain ⟨xs, hxs, rfl⟩ := runs_fieldDeclaration run
    exact ⟨_, rfl, .declare (by simp [site]) hxs⟩

mutual

theorem statement_lowers : (st : Stmt) → {s t s' : State} → {op : Staged} → {stmts : List Stmt} →
    Runs (statement st) s op t → Lowers (t.emit op) stmts s' → Lowers s (st :: stmts) s'
  | .mk (.functionDef name params inner decorators returns) span, s, t, s', op, stmts, run, rest => by
    simp only [statement, function] at run
    cases hrefused : params.refused? with
    | some construct => simp [hrefused] at run
    | none =>
      simp only [hrefused, runs_bind, runs_modify, runs_inBlock, runs_pure] at run
      obtain ⟨_, s₁, rfl, _, s₂, rfl, ⟨entry, formals⟩, s₃, ⟨hentry, s₄, ⟨formals', s₅, hbind, _, s₆,
        hbody, hformals, rfl⟩, hleave⟩, _, s₇, rfl, rfl, rfl⟩ := run
      simp only at hentry hformals
      subst hentry hformals
      exact .function hrefused hbind (body_lowers inner hbody) hleave rest
  | .mk (.classDef name bases keywords inner decorators) span, s, t, s', op, stmts, run, rest => by
    simp only [statement, classDefinition, runs_bind, runs_modify, runs_pure] at run
    obtain ⟨_, s₁, rfl, slot, s₂, hslot, _, s₃, rfl, rfl, rfl⟩ := run
    obtain ⟨rfl, s₄, hbody, hleave⟩ := runs_region hslot
    exact .compound .classDef (.cons (body_lowers inner hbody) hleave .nil) rest
  | .mk (.ret none) span, s, t, s', op, stmts, run, rest => by
    simp only [statement, runs_pure] at run
    obtain ⟨rfl, rfl⟩ := run
    exact .of_simple (.ret runs_operands_nil) rfl rest
  | .mk (.ret (some e)) span, s, t, s', op, stmts, run, rest => by
    simp only [statement, runs_bind, runs_pure] at run
    obtain ⟨x, s₁, hx, rfl, rfl⟩ := run
    exact .of_simple (.ret (runs_operands_singleton hx)) rfl rest
  | .mk (.assign targets value) span, s, t, s', op, stmts, run, rest => by
    simp only [statement, runs_bind] at run
    obtain ⟨name, s₁, hname, run⟩ := run
    obtain ⟨x, s₂, hx, hop, rfl⟩ := runs_assignment run
    unfold singleTarget at hname
    split at hname
    · rw [runs_targetName] at hname
      obtain ⟨hname, rfl⟩ := hname
      obtain ⟨at_, rfl⟩ := Expr.eq_name_of_name? hname
      exact .of_simple (.assign hx) hop rest
    · simp at hname
  | .mk (.augAssign target op value) span, s, t, s', staged, stmts, run, rest => by
    simp only [statement, runs_bind, runs_targetName, runs_modify, runs_pure] at run
    obtain ⟨name, s₁, ⟨hname, rfl⟩, x, s₂, hx, _, s₃, rfl, hop, rfl⟩ := run
    obtain ⟨at_, rfl⟩ := Expr.eq_name_of_name? hname
    exact .of_simple (.augAssign hx) hop rest
  | .mk (.annAssign target annot value simple) span, s, t, s', op, stmts, run, rest => by
    simp only [statement] at run
    obtain ⟨own, hop, one⟩ := runs_annotated run
    exact .of_simple one hop rest
  | .mk (.forIn target iter inner orelse) span, s, t, s', op, stmts, run, rest => by
    simp only [statement] at run
    cases orelse with
    | cons _ _ => simp at run
    | nil =>
      simp only [List.isEmpty_nil, Bool.not_true, Bool.false_eq_true, if_false, runs_bind,
        runs_targetName, runs_modify, runs_pure] at run
      obtain ⟨name, s₁, ⟨hname, rfl⟩, source, s₂, hsource, _, s₃, rfl, loop, s₄, hloop, rfl, rfl⟩ := run
      obtain ⟨at_, rfl⟩ := Expr.eq_name_of_name? hname
      obtain ⟨rfl, x, u, hregion⟩ := runs_exprRegion hsource
      obtain ⟨rfl, v, hbody, hleave⟩ := runs_region hloop
      exact .compound (.forIn hregion) (.cons (body_lowers inner hbody) hleave .nil) rest
  | .mk (.whileDo test inner orelse) span, s, t, s', op, stmts, run, rest => by
    simp only [statement] at run
    cases orelse with
    | cons _ _ => simp at run
    | nil =>
      simp only [List.isEmpty_nil, Bool.not_true, Bool.false_eq_true, if_false, runs_bind,
        runs_pure] at run
      obtain ⟨condition, s₂, hcondition, loop, s₄, hloop, rfl, rfl⟩ := run
      obtain ⟨rfl, x, u, hregion⟩ := runs_exprRegion hcondition
      obtain ⟨rfl, v, hbody, hleave⟩ := runs_region hloop
      exact .compound (.whileDo hregion) (.cons (body_lowers inner hbody) hleave .nil) rest
  | .mk (.ifElse test yes no) span, s, t, s', op, stmts, run, rest => by
    simp only [statement, runs_bind] at run
    obtain ⟨x, s₁, hx, slot, s₂, hslot, run⟩ := run
    obtain ⟨rfl, s₃, hyes, hleave⟩ := runs_region hslot
    cases no with
    | nil =>
      simp only [List.isEmpty_nil, if_true, runs_pure] at run
      obtain ⟨rfl, rfl⟩ := run
      exact .compound (.branch hx) (.cons (body_lowers yes hyes) hleave .nil) rest
    | cons first others =>
      simp only [List.isEmpty_cons, Bool.false_eq_true, if_false, runs_bind, runs_pure] at run
      obtain ⟨slot, s₄, hslot', rfl, rfl⟩ := run
      obtain ⟨rfl, s₅, hno, hleave'⟩ := runs_region hslot'
      exact .compound (.branch hx) (.cons (body_lowers yes hyes) hleave
        (.cons (body_lowers (first :: others) hno) hleave' .nil)) rest
  | .mk (.expr value) span, s, t, s', op, stmts, run, rest => by
    simp only [statement, runs_bind, runs_pure] at run
    obtain ⟨x, s₁, hx, rfl, rfl⟩ := run
    exact .of_simple (.expr hx) rfl rest
  | .mk .pass span, s, t, s', op, stmts, run, rest => by
    simp only [statement, runs_pure] at run
    obtain ⟨rfl, rfl⟩ := run
    exact .of_simple .pass rfl rest
  | .mk .breakLoop span, s, t, s', op, stmts, run, rest => by
    simp only [statement, runs_pure] at run
    obtain ⟨rfl, rfl⟩ := run
    exact .of_simple .breakLoop rfl rest
  | .mk .continueLoop span, s, t, s', op, stmts, run, rest => by
    simp only [statement, runs_pure] at run
    obtain ⟨rfl, rfl⟩ := run
    exact .of_simple .continueLoop rfl rest
  | .mk (.bare kind) span, s, t, s', op, stmts, run, rest => by simp [statement] at run

/-- Every successful pass over statements has a derivation. -/
theorem body_lowers : (stmts : List Stmt) → {s s' : State} → {u : Unit} →
    Runs (body stmts) s u s' → Lowers s stmts s'
  | [], s, s', u, run => by
    simp only [body, runs_pure] at run
    obtain ⟨-, rfl⟩ := run
    exact .nil
  | st :: stmts, s, s', u, run => by
    simp only [body, runs_bind, runs_emit] at run
    obtain ⟨op, t, hst, _, _, rfl, hrest⟩ := run
    exact statement_lowers st hst (body_lowers stmts hrest)

end

end Lower

end RegionIR
