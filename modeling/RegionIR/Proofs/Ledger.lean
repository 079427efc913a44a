import RegionIR.Proofs.Accesses
/-!
# Declared types

One table of declared types is shared by all scopes, and annotations, parameters, functions and first
assignments write to it. A ledger goes through the source with this table and with what the variables
hold. `Stmt.steady` tells from it whether every use of a variable's id gets the type that the id is
produced with.
-/
namespace RegionIR

namespace Ty

mutual

def same : Ty → Ty → Bool
  | unit, unit => true
  | named a, named b => a = b
  | generic c xs, generic d ys => c = d && sameAll xs ys
  | unknown, unknown => true
  | _, _ => false
termination_by structural t => t

def sameAll : List Ty → List Ty → Bool
  | [], [] => true
  | x :: xs, y :: ys => same x y && sameAll xs ys
  | _, _ => false
termination_by structural ts => ts

end

mutual

theorem same_iff : (a b : Ty) → (same a b = true ↔ a = b)
  | .unit, b => by cases b <;> simp [same]
  | .named _, b => by cases b <;> simp [same]
  | .generic _ xs, b => by
    cases b with
    | generic _ ys => simp [same, sameAll_iff xs ys]
    | _ => simp [same]
  | .unknown, b => by cases b <;> simp [same]

theorem sameAll_iff : (xs ys : List Ty) → (sameAll xs ys = true ↔ xs = ys)
  | [], ys => by cases ys <;> simp [sameAll]
  | x :: xs, ys => by
    cases ys with
    | nil => simp [sameAll]
    | cons y ys => simp [sameAll, same_iff x y, sameAll_iff xs ys]

end

instance : DecidableEq Ty := fun a b => decidable_of_iff _ (same_iff a b)

end Ty

/-- The type of the operand that an expression becomes, given the declared types. -/
def Expr.tyIn (declared : String → Option Ty) : Expr → Ty
  | mk form _ =>
    match form with
    | .name id => (declared id).getD .unknown
    | .constant value _ => value.ty
    | .call func _ _ => ((func.dotted?).bind declared).getD .unknown
    | _ => .unknown

/-- What a program does to declared types and to its variables, in the order of lowering. -/
inductive Deed where
  | declare (name : String) (ty : Ty)
  | read (name : String)
  /-- An assignment, with the type it is annotated with. -/
  | bind (name : String) (value : Expr) (annot : Option Ty)
  /-- A write that goes to memory in any case. -/
  | touch (name : String)
  | function (params : List (String × Ty)) (deeds : List Deed)

namespace Stmt

mutual

/-- The deeds of a statement. Blocks make no difference to them. -/
def deeds (inFunction : Bool) : Stmt → List Deed
  | mk form _ =>
    match form with
    | .functionDef name params body _ returns =>
      [.declare name (annotatedTy? returns),
        .function (params.plain.map fun p => (p.name, annotatedTy? p.annot)) (deedsAll true body)]
    | .classDef _ _ _ body _ => deedsAll false body
    | .ret value => (Expr.readsAll value.toList).map .read
    | .assign targets value =>
      value.reads.map .read ++ (targets.filterMap Expr.name?).map (.bind · value none)
    | .augAssign target _ value => value.reads.map .read ++ target.name?.toList.map .touch
    | .annAssign target annot value _ =>
      match inFunction, value with
      | true, some e =>
        e.reads.map .read ++ target.name?.toList.map (.bind · e (some annot.annotatedTy))
      | _, _ =>
        target.name?.toList.map (.declare · annot.annotatedTy) ++
          (Expr.readsAll value.toList).map .read
    | .forIn target iter body _ =>
      iter.reads.map .read ++ target.name?.toList.map .touch ++ deedsAll inFunction body
    | .whileDo test body _ => test.reads.map .read ++ deedsAll inFunction body
    | .ifElse test yes no =>
      test.reads.map .read ++ deedsAll inFunction yes ++ deedsAll inFunction no
    | .expr value => value.reads.map .read
    | _ => []
termination_by structural s => s

def deedsAll (inFunction : Bool) : List Stmt → List Deed
  | [] => []
  | s :: rest => deeds inFunction s ++ deedsAll inFunction rest
termination_by structural ss => ss

end

end Stmt

/-- What a variable holds. -/
inductive Held where
  | nothing
  /-- An id that was produced with the given type. -/
  | value (ty : Ty)
  | memory

/-- The declared types, what the variables of the innermost scope hold, and the types of the plain ids
that have been handed out. -/
structure Ledger where
  declared : String → Option Ty
  held : String → Held
  plain : String → Option Ty

namespace Ledger

def empty : Ledger := ⟨fun _ => none, fun _ => .nothing, fun _ => none⟩

variable (l : Ledger)

def tyOf (name : String) : Ty := (l.declared name).getD .unknown

def declare (name : String) (ty : Ty) : Ledger :=
  { l with declared := fun x => if x = name then some ty else l.declared x }

/-- The variable gets an id of the given type, the plain one if nobody has it. -/
def define (name : String) (ty : Ty) : Ledger :=
  { l with
    held := fun x => if x = name then .value ty else l.held x
    plain := fun x => if x = name then some ((l.plain x).getD ty) else l.plain x }

def move (name : String) : Ledger :=
  { l with held := fun x => if x = name then .memory else l.held x }

/-- The type of a first definition: the annotation, else the declared type, else that of the value,
which is then declared unless it is unknown. -/
def settle (name : String) (valueTy : Ty) : Option Ty → Ty × Ledger
  | some ty => (ty, l.declare name ty)
  | none =>
    match l.declared name with
    | some ty => (ty, l)
    | none => (valueTy, if valueTy.isUnknown then l else l.declare name valueTy)

def bind (name : String) (valueTy : Ty) (annot : Option Ty) : Ledger :=
  match l.held name with
  | .nothing => (l.settle name valueTy annot).2.define name (l.settle name valueTy annot).1
  | _ => annot.elim (l.move name) ((l.move name).declare name)

def enter (params : List (String × Ty)) : Ledger :=
  params.foldl (fun l p => (l.define p.1 p.2).declare p.1 p.2) { l with held := fun _ => .nothing }

def leave (outer : Ledger) : Ledger := { l with held := outer.held }

/-- A read gets the type that its id is produced with. The plain ids of the program have the types
`final`: a name that holds nothing is read as its plain id, which may be produced somewhere else. -/
def readsSteady (final : String → Option Ty) (name : String) : Bool :=
  match l.held name with
  | .nothing => (final name).all (l.tyOf name = ·)
  | .value ty => l.tyOf name = ty
  | .memory => true

/-- The store that a write puts in for the value held so far gets its type right. -/
def writesSteady (name : String) : Bool :=
  match l.held name with
  | .value ty => l.tyOf name = ty
  | _ => true

end Ledger

namespace Deed

mutual

def post (l : Ledger) : Deed → Ledger
  | declare name ty => l.declare name ty
  | read _ => l
  | bind name value annot => l.bind name (value.tyIn l.declared) annot
  | touch name => l.move name
  | function params deeds => (postAll (l.enter params) deeds).leave l
termination_by structural d => d

def postAll (l : Ledger) : List Deed → Ledger
  | [] => l
  | d :: ds => postAll (post l d) ds
termination_by structural ds => ds

end

mutual

/-- A deed uses every id with the type that it is produced with. -/
def steady (final : String → Option Ty) (l : Ledger) : Deed → Bool
  | declare _ _ => true
  | read name => l.readsSteady final name
  | bind name _ _ => l.writesSteady name
  | touch name => l.writesSteady name
  | function params deeds => steadyAll final (l.enter params) deeds
termination_by structural d => d

def steadyAll (final : String → Option Ty) (l : Ledger) : List Deed → Bool
  | [] => true
  | d :: ds => steady final l d && steadyAll final (post l d) ds
termination_by structural ds => ds

end

mutual

def reads : Deed → List String
  | declare _ _ => []
  | read name => [name]
  | bind _ _ _ => []
  | touch _ => []
  | function _ deeds => readsAll deeds
termination_by structural d => d

def readsAll : List Deed → List String
  | [] => []
  | d :: ds => reads d ++ readsAll ds
termination_by structural ds => ds

end

theorem postAll_append (l : Ledger) (ds es : List Deed) :
    postAll l (ds ++ es) = postAll (postAll l ds) es := by
  induction ds generalizing l with
  | nil => rfl
  | cons d ds ih => exact ih (post l d)

theorem steadyAll_append (final : String → Option Ty) (l : Ledger) (ds es : List Deed) :
    steadyAll final l (ds ++ es) = (steadyAll final l ds && steadyAll final (postAll l ds) es) := by
  induction ds generalizing l with
  | nil => simp [steadyAll, postAll]
  | cons d ds ih => rw [List.cons_append, steadyAll, steadyAll, ih, postAll, Bool.and_assoc]

theorem readsAll_append (ds es : List Deed) : readsAll (ds ++ es) = readsAll ds ++ readsAll es := by
  induction ds with
  | nil => rfl
  | cons d ds ih => rw [List.cons_append, readsAll, readsAll, ih, List.append_assoc]

theorem postAll_reads (l : Ledger) (names : List String) : postAll l (names.map .read) = l := by
  induction names with
  | nil => rfl
  | cons name names ih => exact ih

theorem steadyAll_reads (final : String → Option Ty) (l : Ledger) (names : List String) :
    steadyAll final l (names.map .read) = names.all (l.readsSteady final) := by
  induction names with
  | nil => rfl
  | cons name names ih => rw [List.map_cons, steadyAll, steady, post, ih, List.all_cons]

theorem readsAll_reads (names : List String) : readsAll (names.map .read) = names := by
  induction names with
  | nil => rfl
  | cons name names ih =>
    rw [List.map_cons, readsAll, ih, reads]
    rfl

end Deed

/-- Every use of an id in the program gets the type that the id is produced with. -/
def Stmt.steady (stmts : List Stmt) : Bool :=
  Deed.steadyAll (Deed.postAll .empty (Stmt.deedsAll false stmts)).plain .empty
    (Stmt.deedsAll false stmts)

namespace Deed

private theorem readsAll_map {f : String → Deed} (h : ∀ x, (f x).reads = []) (names : List String) :
    readsAll (names.map f) = [] := by
  induction names with
  | nil => rfl
  | cons name names ih => rw [List.map_cons, readsAll, ih, h, List.append_nil]

@[simp] theorem readsAll_declare (ty : Ty) (names : List String) :
    readsAll (names.map (.declare · ty)) = [] := readsAll_map (fun _ => rfl) names

@[simp] theorem readsAll_bind (value : Expr) (annot : Option Ty) (names : List String) :
    readsAll (names.map (.bind · value annot)) = [] := readsAll_map (fun _ => rfl) names

@[simp] theorem readsAll_touch (names : List String) :
    readsAll (names.map .touch) = [] := readsAll_map (fun _ => rfl) names

end Deed

namespace Stmt

mutual

theorem readsAll_deeds {x : String} : (st : Stmt) → (inFunction : Bool) →
    x ∈ Deed.readsAll (st.deeds inFunction) → x ∈ Act.namesAll (st.acts inFunction)
  | .mk (.functionDef _ params body _ _) _, _, hx => by
    simp only [deeds, Deed.readsAll, Deed.reads, List.nil_append, List.append_nil] at hx
    simp only [acts, Act.namesAll, Act.names, List.append_nil]
    exact List.mem_append_right _ (readsAll_deedsAll body true hx)
  | .mk (.classDef _ _ _ body _) _, _, hx => by
    simp only [acts, Act.namesAll, Act.names, List.append_nil]
    exact readsAll_deedsAll body false hx
  | .mk (.ret value) _, _, hx => by
    simp only [deeds, Deed.readsAll_reads] at hx
    simpa only [acts, Act.namesAll_reads] using hx
  | .mk (.assign targets value) _, _, hx => by
    simp only [deeds, Deed.readsAll_append, Deed.readsAll_reads, Deed.readsAll_bind,
      List.append_nil] at hx
    simp only [acts, Act.namesAll_append, Act.namesAll_reads]
    exact List.mem_append_left _ hx
  | .mk (.augAssign target _ value) _, _, hx => by
    simp only [deeds, Deed.readsAll_append, Deed.readsAll_reads,
      Deed.readsAll_touch, List.append_nil] at hx
    simp only [acts, Act.namesAll_append, Act.namesAll_reads]
    exact List.mem_append_left _ hx
  | .mk (.annAssign target annot value _) _, inFunction, hx => by
    have hreads : x ∈ Expr.readsAll value.toList := by
      cases value with
      | none =>
        cases inFunction <;> simp [deeds, Expr.readsAll] at hx
      | some e =>
        cases inFunction <;>
          simpa [deeds, Deed.readsAll_append, Deed.readsAll_reads, Expr.readsAll] using hx
    simp only [acts, Act.namesAll_append, Act.namesAll_reads]
    exact List.mem_append_left _ hreads
  | .mk (.forIn target iter body _) _, inFunction, hx => by
    simp only [deeds, Deed.readsAll_append, Deed.readsAll_reads,
      Deed.readsAll_touch, List.append_nil, List.mem_append] at hx
    simp only [acts, Act.namesAll_append, Act.namesAll, Act.names, Act.namesAll_reads, List.append_nil,
      List.mem_append, List.cons_append]
    exact hx.imp id fun hx => .inr (readsAll_deedsAll body inFunction hx)
  | .mk (.whileDo test body _) _, inFunction, hx => by
    simp only [deeds, Deed.readsAll_append, Deed.readsAll_reads, List.mem_append] at hx
    simp only [acts, Act.namesAll, Act.names, Act.namesAll_reads, List.append_nil, List.mem_append]
    exact hx.imp id (readsAll_deedsAll body inFunction)
  | .mk (.ifElse test yes no) _, inFunction, hx => by
    simp only [deeds, Deed.readsAll_append, Deed.readsAll_reads, List.mem_append] at hx
    have hno := readsAll_deedsAll no inFunction (x := x)
    have hyes := readsAll_deedsAll yes inFunction (x := x)
    cases no with
    | nil =>
      simp only [acts, Act.namesAll_append, Act.namesAll_reads, Act.namesAll, Act.names,
        List.isEmpty_nil, if_true, List.append_nil, List.mem_append]
      simp only [deedsAll, Deed.readsAll, List.not_mem_nil, or_false] at hx
      exact hx.imp id hyes
    | cons first others =>
      simp only [acts, Act.namesAll_append, Act.namesAll_reads, Act.namesAll, Act.names,
        List.isEmpty_cons, Bool.false_eq_true, if_false, List.append_nil, List.mem_append]
      tauto
  | .mk (.expr value) _, _, hx => by
    simp only [deeds, Deed.readsAll_reads] at hx
    simpa only [acts, Act.namesAll_reads] using hx
  | .mk .pass _, _, hx => by simp [deeds, Deed.readsAll] at hx
  | .mk .breakLoop _, _, hx => by simp [deeds, Deed.readsAll] at hx
  | .mk .continueLoop _, _, hx => by simp [deeds, Deed.readsAll] at hx
  | .mk (.bare _) _, _, hx => by simp [deeds, Deed.readsAll] at hx

theorem readsAll_deedsAll {x : String} : (stmts : List Stmt) → (inFunction : Bool) →
    x ∈ Deed.readsAll (deedsAll inFunction stmts) → x ∈ Act.namesAll (actsAll inFunction stmts)
  | [], _, hx => by simp [deedsAll, Deed.readsAll] at hx
  | st :: rest, inFunction, hx => by
    rw [deedsAll, Deed.readsAll_append] at hx
    rw [actsAll, Act.namesAll_append]
    rcases List.mem_append.mp hx with hx | hx
    · exact List.mem_append_left _ (readsAll_deeds st inFunction hx)
    · exact List.mem_append_right _ (readsAll_deedsAll rest inFunction hx)

end

end Stmt

end RegionIR
