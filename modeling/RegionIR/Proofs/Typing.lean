import RegionIR.Proofs.Keeping
/-!
# Types of uses and of definitions

The results of expressions and of loads are used with the type they are produced with. A variable's id
is not: a use of it gets the type that is declared for its name where it stands. A pass is followed row
by row along the deeds of the source, and its uses agree with its definitions just if the source is
steady.
-/
namespace RegionIR

open Lower (Runs)

/-- The pass from `s` to `t` appends the rows `new`, and its operands `pool` are still to be taken. It
goes with the deeds of the source: the ledger stays right, and all uses agree with definitions just if
the deeds are steady. -/
structure Follows (R : List Row) (s : State) (deeds : List Deed) (t : State) (new : List Row)
    (pool : List Operand) : Prop where
  emits : ∀ r, r ∈ t.blocks.rows ↔ r ∈ s.blocks.rows ∨ r ∈ new
  paired : ∀ r ∈ new, r.Paired
  keeps : ∀ {l : Ledger}, Keeps R s l → Keeps R t (Deed.postAll l deeds)
  rooted : ∀ {l : Ledger}, Keeps R s l → ∀ p ∈ new.flatMap Row.uses ++ pool, Rooted R p
  agree : ∀ {l : Ledger} {final : String → Option Ty}, Census R final → Keeps R s l →
    ((∀ p ∈ new.flatMap Row.uses ++ pool, WellTyped R p) ↔ Deed.steadyAll final l deeds = true)

namespace Follows

variable {R : List Row} {s t u : State} {ds es : List Deed} {new more : List Row}
  {pool rest : List Operand}

private theorem of_same (blocks : t.blocks.rows = s.blocks.rows) (scopes : t.scopes = s.scopes)
    (types : t.types = s.types) (taken : t.taken = s.taken) : Follows R s [] t [] [] where
  emits r := by simp [blocks]
  paired := by simp
  keeps h := h.congr scopes types taken
  rooted _ := by simp
  agree _ _ := by simp [Deed.steadyAll]

theorem trans (h : Follows R s ds t new pool) (h' : Follows R t es u more rest) :
    Follows R s (ds ++ es) u (new ++ more) (pool ++ rest) where
  emits r := by rw [h'.emits, h.emits, List.mem_append, or_assoc]
  paired r hr := (List.mem_append.mp hr).elim (h.paired r) (h'.paired r)
  keeps hl := by
    rw [Deed.postAll_append]
    exact h'.keeps (h.keeps hl)
  rooted hl p hp := by
    have hcases : p ∈ new.flatMap Row.uses ++ pool ∨ p ∈ more.flatMap Row.uses ++ rest := by
      simp only [List.flatMap_append, List.mem_append] at hp ⊢
      tauto
    exact hcases.elim (h.rooted hl p) (h'.rooted (h.keeps hl) p)
  agree census hl := by
    rw [Deed.steadyAll_append, Bool.and_eq_true, ← h.agree census hl,
      ← h'.agree census (h.keeps hl), ← List.forall_mem_append]
    constructor
    · intro hall p hp
      apply hall p
      simp only [List.flatMap_append, List.mem_append] at hp ⊢
      tauto
    · intro hall p hp
      apply hall p
      simp only [List.flatMap_append, List.mem_append] at hp ⊢
      tauto

private theorem declare (s : State) (name : String) (ty : Ty) :
    Follows R s [.declare name ty] (s.declare name ty) [] [] where
  emits r := by simp [State.declare]
  paired := by simp
  keeps h := h.declare name ty
  rooted _ := by simp
  agree _ _ := by simp [Deed.steadyAll, Deed.steady]

private theorem line {reads : List String} {hs : List Head} (line : Straight s reads hs pool t)
    (plain : ∀ x ∈ reads, PlainName x) (placed : s.current < s.blocks.length)
    (made : hs.map Row.operator ⊆ R) :
    Follows R s (reads.map .read) t (hs.map .operator) pool := by
  have happ := line.flat.appended
  have huses : (hs.map Row.operator).flatMap Row.uses = hs.flatMap Head.operands := by
    rw [List.flatMap_map]
    rfl
  have hresult : ∀ p ∈ hs.flatMap Head.outcomes, p ∈ R.flatMap Row.makes := by
    intro p hp
    obtain ⟨h, hh, hp⟩ := List.mem_flatMap.mp hp
    exact List.mem_flatMap.mpr ⟨.operator h, made (List.mem_map_of_mem hh), hp⟩
  constructor
  · intro r
    rw [happ.blocks, Blocks.mem_rows_foldl_emit _ _ placed]
  · intro r hr
    obtain ⟨h, hh, rfl⟩ := List.mem_map.mp hr
    exact line.paired h hh
  · intro l hl
    rw [Deed.postAll_reads]
    exact hl.congr happ.scopes happ.types happ.taken
  · intro l hl p hp
    rw [huses] at hp
    rcases line.sources p hp with ⟨x, hx, hne, rfl⟩ | hp
    · exact hl.rooted (plain x hx) hne
    · exact .inl (hresult p hp)
  · intro l final census hl
    rw [huses, Deed.steadyAll_reads, List.all_eq_true]
    constructor
    · intro hall x hx
      apply (hl.readsSteady_iff census (plain x hx)).mpr
      intro hne
      exact hall _ (line.uses x hx hne)
    · intro hall p hp
      rcases line.sources p hp with ⟨x, hx, hne, rfl⟩ | hp
      · exact (hl.readsSteady_iff census (plain x hx)).mp (hall x hx) hne
      · obtain ⟨v, ty⟩ := p
        exact (census.wellTyped_iff (hresult _ hp)).mpr rfl

private theorem emit (h : Follows R s ds t new pool) (placed : t.current < t.blocks.length) {own : Head}
    {slots : List Slot} {xs : List Operand} (takes : own.Takes xs) (same : ∀ p, p ∈ xs ↔ p ∈ pool)
    (results : own.results.length = own.resultTypes.length) :
    Follows R s ds (t.emit (.ofHead own slots))
      (new ++ .operator own :: slots.flatMap Slot.rows) [] := by
  have hlabels : ∀ r ∈ slots.flatMap Slot.rows, ∃ l, r = .label l := by
    intro r hr
    obtain ⟨slot, -, hr⟩ := List.mem_flatMap.mp hr
    obtain ⟨l, -, rfl⟩ := List.mem_map.mp hr
    exact ⟨l, rfl⟩
  have hnone : (slots.flatMap Slot.rows).flatMap Row.uses = [] := by
    rw [List.flatMap_eq_nil_iff]
    intro r hr
    obtain ⟨l, rfl⟩ := hlabels r hr
    rfl
  have hown : (Row.operator own).uses = xs := takes.operands
  have huses : ∀ p, p ∈ (new ++ .operator own :: slots.flatMap Slot.rows).flatMap Row.uses ++ [] ↔
      p ∈ new.flatMap Row.uses ++ pool := by
    intro p
    rw [List.append_nil, List.flatMap_append, List.flatMap_cons, hnone, hown, List.append_nil,
      List.mem_append, List.mem_append, same]
  constructor
  · intro r
    rw [State.emit, State.emitInto, Blocks.mem_rows_emit _ _ placed, h.emits, Staged.rows_ofHead,
      List.mem_append, or_assoc]
  · intro r hr
    rcases List.mem_append.mp hr with hr | hr
    · exact h.paired r hr
    rcases List.mem_cons.mp hr with rfl | hr
    · exact ⟨by rw [takes.args, takes.types, List.length_map, List.length_map], results⟩
    · obtain ⟨l, rfl⟩ := hlabels r hr
      trivial
  · intro l hl
    exact (h.keeps hl).congr rfl rfl rfl
  · intro l hl p hp
    exact h.rooted hl p ((huses p).mp hp)
  · intro l final census hl
    rw [← h.agree census hl]
    exact forall_congr' fun p => imp_congr_left (huses p)

end Follows

namespace Follows

variable {R : List Row} {s : State}

private theorem touch (placed : s.Placed) (name : String) :
    Follows R s [.touch name] (s.writeThrough name) (s.stores name) [] where
  emits := s.mem_rows_writeThrough placed name
  paired := s.stores_paired name
  keeps h := h.move (s.types_writeThrough name) (s.write_writeThrough name)
  rooted h := by
    rw [List.append_nil]
    exact h.rooted_stores name
  agree census h := by
    rw [List.append_nil, h.writesSteady_iff census]
    simp [Deed.steadyAll, Deed.steady]

theorem bind (placed : s.Placed) (name : String) {x : Operand} {value : Expr} (annot : Option Ty)
    (hx : x.2 = value.tyIn s.declared?) (own : .operator (s.assign name x annot).1 ∈ R) :
    Follows R s [.bind name value annot] (s.assign name x annot).2 (s.stores name) [] where
  emits := s.mem_rows_assign placed name x annot
  paired := s.stores_paired name
  keeps {l} h := by
    have hdeclared : s.declared? = l.declared := funext h.declared
    rw [hdeclared] at hx
    have hkeeps := h.assign name x annot own
    rwa [hx] at hkeeps
  rooted h := by
    rw [List.append_nil]
    exact h.rooted_stores name
  agree census h := by
    rw [List.append_nil, h.writesSteady_iff census]
    simp [Deed.steadyAll, Deed.steady]

end Follows

private theorem Follows.declareTarget {R : List Row} (s : State) (target annot : Expr) :
    Follows R s (target.name?.toList.map (.declare · annot.annotatedTy))
      (s.declareTarget target annot) [] [] := by
  unfold State.declareTarget
  cases target.name? with
  | none => exact .of_same rfl rfl rfl rfl
  | some name => exact .declare s name _

private theorem Follows.statement {R : List Row} {s m t : State} {reads : List String} {hs : List Head}
    {xs : List Operand} {own : Head} {ends : List Deed} {new : List Row}
    (line : Straight s reads hs xs.reverse m) (plain : ∀ x ∈ reads, PlainName x) (placed : s.Placed)
    (write : Follows R m ends t new []) (current : t.current < t.blocks.length)
    (takes : own.Takes xs) (results : own.results.length = own.resultTypes.length)
    (hR : (t.emit (.ofHead own)).blocks.rows ⊆ R) :
    ∃ rows, Follows R s (reads.map .read ++ ends) (t.emit (.ofHead own)) rows [] := by
  have hline : hs.map Row.operator ⊆ R := by
    intro r hr
    apply hR
    rw [State.emit, State.emitInto, Blocks.mem_rows_emit _ _ current, write.emits,
      line.flat.appended.blocks, Blocks.mem_rows_foldl_emit _ _ placed.current_lt]
    exact .inl (.inl (.inr hr))
  have hall := (Follows.line line plain placed.current_lt hline).trans write
  exact ⟨_, hall.emit current takes (by simp) results⟩

private theorem Follows.bare {R : List Row} {s : State} {own : Head}
    (current : s.current < s.blocks.length)
    (takes : own.Takes []) (results : own.results.length = own.resultTypes.length) :
    ∃ rows, Follows R s [] (s.emit (.ofHead own)) rows [] := by
  have hsame : Follows R s [] s [] [] := .of_same rfl rfl rfl rfl
  exact ⟨_, hsame.emit current takes (fun _ => Iff.rfl) results⟩

private theorem State.mem_rows_of_emit {t : State} {own : Head} {slots : List Slot}
    (current : t.current < t.blocks.length) :
    .operator own ∈ (t.emit (.ofHead own slots)).blocks.rows := by
  rw [State.emit, State.emitInto, Blocks.mem_rows_emit _ _ current, Staged.rows_ofHead]
  exact .inr List.mem_cons_self

private theorem assign_takes (s : State) (name : String) (x : Operand) (annot : Option Ty) :
    (s.assign name x annot).1.Takes [x] ∧
      (s.assign name x annot).1.results.length = (s.assign name x annot).1.resultTypes.length := by
  obtain ⟨_, _, -, hown, -⟩ | ⟨-, hown, -⟩ := s.write_assign name x annot
  · rw [hown]
    exact ⟨⟨rfl, rfl⟩, rfl⟩
  · rw [hown]
    exact ⟨⟨rfl, rfl⟩, rfl⟩

private theorem functionHead_takes (name : String) (decorators : List Expr)
    (formals : List (ValueId × Ty))
    (result : Ty) : (functionHead name decorators formals result).Takes [] ∧
      (functionHead name decorators formals result).results.length =
        (functionHead name decorators formals result).resultTypes.length := by
  unfold functionHead
  dsimp only
  split <;> exact ⟨⟨rfl, rfl⟩, rfl⟩

private theorem Simple.follows {R : List Row} {s t : State} {st : Stmt} {own : Head}
    (one : Simple s st own t)
    (placed : s.Placed) (plain : ∀ x ∈ Deed.readsAll (st.deeds s.inFunction), PlainName x)
    (hR : (t.emit (.ofHead own)).blocks.rows ⊆ R) :
    ∃ new, Follows R s (st.deeds s.inFunction) (t.emit (.ofHead own)) new [] := by
  have hcurrent := (placed.extension one.extension).current_lt
  have hown := hR (State.mem_rows_of_emit hcurrent)
  cases one with
  | ret run =>
    obtain ⟨hs, line⟩ := Lower.straight_of_operands run
    rw [Stmt.deeds, Deed.readsAll_reads] at plain
    have hall := Follows.statement line plain placed (.of_same rfl rfl rfl rfl) hcurrent
      ⟨rfl, rfl⟩ rfl hR
    simpa [Stmt.deeds] using hall
  | @expr _ value x _ run =>
    obtain ⟨hs, line⟩ := Lower.straight_of_operand run
    have line : Straight s value.reads hs [x].reverse t := line
    rw [Stmt.deeds, Deed.readsAll_reads] at plain
    have hall := Follows.statement line plain placed (.of_same rfl rfl rfl rfl) hcurrent
      ⟨rfl, rfl⟩ rfl hR
    simpa [Stmt.deeds] using hall
  | pass => exact Follows.bare hcurrent ⟨rfl, rfl⟩ rfl
  | breakLoop => exact Follows.bare hcurrent ⟨rfl, rfl⟩ rfl
  | continueLoop => exact Follows.bare hcurrent ⟨rfl, rfl⟩ rfl
  | @declare _ target annot value simple xs span site run =>
    obtain ⟨hs, line⟩ := Lower.straight_of_operands run
    have hdeeds : (Stmt.mk (.annAssign target annot value simple) span).deeds s.inFunction =
        target.name?.toList.map (.declare · annot.annotatedTy) ++
          (Expr.readsAll value.toList).map .read := by
      by_cases hsite : s.inFunction = true
      · rw [if_pos hsite] at site
        rw [site.2, hsite]
        rfl
      · rw [Bool.not_eq_true] at hsite
        rw [hsite]
        cases value <;> rfl
    rw [hdeeds, Deed.readsAll_append, Deed.readsAll_reads] at plain
    have hplaced : (s.declareTarget target annot).Placed :=
      placed.sameVars (Alike.declareTarget target annot).toSameVars
    obtain ⟨new, hall⟩ := Follows.statement line (fun x hx => plain x (List.mem_append_right _ hx))
      hplaced (.of_same rfl rfl rfl rfl) hcurrent ⟨rfl, rfl⟩ rfl hR
    rw [hdeeds]
    rw [List.append_nil] at hall
    exact ⟨_, (Follows.declareTarget s target annot).trans hall⟩
  | @assign m name value x at_ span run =>
    obtain ⟨hs, line⟩ := Lower.straight_of_operand run
    have line : Straight s value.reads hs [x].reverse m := line
    have hm : m.Placed := placed.extension line.flat.appended.extension
    obtain ⟨htakes, hresults⟩ := assign_takes m name x none
    rw [Stmt.deeds, Deed.readsAll_append, Deed.readsAll_reads] at plain
    exact Follows.statement line (fun y hy => plain y (List.mem_append_left _ hy)) placed
      (.bind hm name none (Lower.ty_of_operand run) hown) hcurrent htakes hresults hR
  | @annotate m name annot value simple x at_ span site run =>
    obtain ⟨hs, line⟩ := Lower.straight_of_operand run
    have line : Straight s value.reads hs [x].reverse m := line
    have hm : m.Placed := placed.extension line.flat.appended.extension
    obtain ⟨htakes, hresults⟩ := assign_takes m name x (some annot.annotatedTy)
    have hdeeds : (Stmt.mk (.annAssign (.mk (.name name) at_) annot (some value) simple) span).deeds
        s.inFunction = value.reads.map .read ++ [.bind name value (some annot.annotatedTy)] := by
      rw [site]
      rfl
    rw [hdeeds, Deed.readsAll_append, Deed.readsAll_reads] at plain
    rw [hdeeds]
    exact Follows.statement line (fun y hy => plain y (List.mem_append_left _ hy)) placed
      (.bind hm name _ (Lower.ty_of_operand run) hown) hcurrent htakes hresults hR
  | @augAssign m name op value x at_ span run =>
    obtain ⟨hs, line⟩ := Lower.straight_of_operand run
    have line : Straight s value.reads hs [x].reverse m := line
    have hm : m.Placed := placed.extension line.flat.appended.extension
    rw [Stmt.deeds, Deed.readsAll_append, Deed.readsAll_reads] at plain
    exact Follows.statement line (fun y hy => plain y (List.mem_append_left _ hy)) placed
      (.touch hm name) hcurrent ⟨rfl, rfl⟩ rfl hR

private theorem State.types_of_leave? {s s' : State} {block : Nat} (h : s.leave? block = some s') :
    s'.types = s.types := by
  unfold leave? at h
  split at h
  · simp at h
  · split at h
    · cases h
      rfl
    · simp at h

namespace Follows

variable {R : List Row} {s t : State}

private theorem enter (s : State) : Follows R s [] s.enter [] [] :=
  .of_same (Blocks.rows_extend s.blocks) rfl rfl rfl

private theorem leave {block : Nat} (h : s.leave? block = some t) : Follows R s [] t [] [] := by
  have left := State.left_of_leave? h
  apply of_same
  · rw [left.blocks]
  · exact left.scopes
  · exact State.types_of_leave? h
  · exact left.taken

end Follows

private theorem YieldRegion.extension {s u t : State} {e : Expr} {x : Operand}
    (region : YieldRegion s e x u t) : Extends none s t := by
  obtain ⟨hs, flat⟩ := Lower.flat_of_operand region.1
  exact Extends.of_loop flat region.2 (.inl ⟨rfl, rfl⟩)

private theorem YieldRegion.follows {R : List Row} {s u t : State} {e : Expr} {x : Operand}
    (region : YieldRegion s e x u t) (placed : s.Placed) (plain : ∀ y ∈ e.reads, PlainName y)
    (hR : t.blocks.rows ⊆ R) : ∃ new, Follows R s (e.reads.map .read) t new [] := by
  obtain ⟨run, leave⟩ := region
  obtain ⟨hs, line⟩ := Lower.straight_of_operand run
  have line : Straight s.enter e.reads hs [x].reverse u := line
  have hcurrent := (placed.enter.extension line.flat.appended.extension).current_lt
  rw [(State.left_of_leave? leave).blocks] at hR
  obtain ⟨new, hall⟩ := Follows.statement line plain placed.enter (.of_same rfl rfl rfl rfl) hcurrent
    ⟨rfl, rfl⟩ rfl hR
  rw [List.append_nil] at hall
  have htrans := ((Follows.enter s).trans hall).trans (.leave leave)
  simp only [List.nil_append, List.append_nil] at htrans
  exact ⟨_, htrans⟩

/-- What a compound statement does before its bodies, with the operands that its operator will take,
and how its deeds go on. -/
theorem Opens.follows {R : List Row} {s t : State} {st : Stmt} {own : Head} {slots : List Slot}
    {bodies : List (List Stmt)} {close : State → State} (h : Opens s st own slots bodies t close)
    (placed : s.Placed) (plain : ∀ x ∈ Deed.readsAll (st.deeds s.inFunction), PlainName x) :
    ∃ pre xs, st.deeds s.inFunction = pre ++ bodies.flatMap (Stmt.deedsAll t.inFunction) ∧
      own.Takes xs ∧ own.results.length = own.resultTypes.length ∧
      (∀ u, Follows R u [] (close u) [] []) ∧
      (t.blocks.rows ⊆ R → ∃ new, Follows R s pre t new xs) := by
  cases h with
  | @branch _ test yes no x span run =>
    obtain ⟨hs, line⟩ := Lower.straight_of_operand run
    have happ := line.flat.appended
    have hdeeds : (Stmt.mk (.ifElse test yes no) span).deeds s.inFunction =
        test.reads.map .read ++ (branches yes no).flatMap (Stmt.deedsAll t.inFunction) := by
      rw [State.inFunction_congr s happ.sites]
      cases no <;> simp [Stmt.deeds, branches, Stmt.deedsAll]
    rw [hdeeds, Deed.readsAll_append, Deed.readsAll_reads] at plain
    refine ⟨_, [x], hdeeds, ⟨rfl, rfl⟩, rfl, fun u => .of_same rfl rfl rfl rfl, ?_⟩
    intro hR
    have hmade : hs.map Row.operator ⊆ R := by
      intro r hr
      apply hR
      rw [happ.blocks, Blocks.mem_rows_foldl_emit _ _ placed.current_lt]
      exact .inr hr
    exact ⟨_, .line line (fun y hy => plain y (List.mem_append_left _ hy)) placed.current_lt hmade⟩
  | @whileDo _ u test stmts x span region =>
    have hdeeds : (Stmt.mk (.whileDo test stmts []) span).deeds s.inFunction =
        test.reads.map .read ++ Stmt.deedsAll t.inFunction stmts := by
      rw [State.inFunction_congr s region.extension.sites]
      rfl
    rw [hdeeds, Deed.readsAll_append, Deed.readsAll_reads] at plain
    refine ⟨_, [], by simpa using hdeeds, ⟨rfl, rfl⟩, rfl, fun u => .of_same rfl rfl rfl rfl, ?_⟩
    exact region.follows placed fun y hy => plain y (List.mem_append_left _ hy)
  | @forIn v u name iter stmts x at_ span region =>
    have hsites := (v.write_writeThrough name).frame.sites.trans region.extension.sites
    have hdeeds : (Stmt.mk (.forIn (.mk (.name name) at_) iter stmts []) span).deeds s.inFunction =
        iter.reads.map .read ++ [.touch name] ++
          Stmt.deedsAll (v.writeThrough name).inFunction stmts := by
      rw [State.inFunction_congr s hsites]
      rfl
    rw [hdeeds, Deed.readsAll_append, Deed.readsAll_append, Deed.readsAll_reads] at plain
    have hv : v.Placed := placed.extension (region.extension.weaken _)
    refine ⟨iter.reads.map .read ++ [.touch name], [], by simpa using hdeeds, ⟨rfl, rfl⟩, rfl,
      fun u => .of_same rfl rfl rfl rfl, ?_⟩
    intro hR
    obtain ⟨new, hnew⟩ := region.follows placed
      (fun y hy => plain y (List.mem_append_left _ (List.mem_append_left _ hy)))
      (fun r hr => hR ((v.mem_rows_writeThrough hv name r).mpr (.inl hr)))
    exact ⟨_, hnew.trans (.touch hv name)⟩
  | classDef =>
    refine ⟨[], [], ?_, ⟨rfl, rfl⟩, rfl, fun u => .of_same rfl rfl rfl rfl,
      fun _ => ⟨[], .of_same rfl rfl rfl rfl⟩⟩
    simp [Stmt.deeds, State.inFunction, State.site, State.pushClass]

/-- A function is followed in a scope of its own, which starts with its parameters. -/
theorem Follows.function {R : List Row} {s t u v : State} {name : String} {ty : Ty}
    {params : List Param} {formals : List (ValueId × Ty)} {deeds : List Deed} {new : List Row}
    (bind : Runs (Lower.bindParams s.blocks.length params) (s.declare name ty).pushFunction.enter
      formals t)
    (made : ∀ p ∈ formals, Defines R p.1 p.2) (inner : Follows R t deeds u new [])
    (frame : Frame t u) (leave : u.leave? s.blocks.length = some v) :
    Follows R (s.declare name ty)
      [.function (params.map fun p => (p.name, annotatedTy? p.annot)) deeds] v.popFunction new [] := by
  obtain ⟨-, hblocks, hscopes, -, -⟩ := (Lower.binds_of_bindParams bind).entry
  have left := State.left_of_leave? leave
  have htypes : v.types = u.types := State.types_of_leave? leave
  have hscopes : v.popFunction.scopes = s.scopes := State.popFunction_scopes hscopes frame left
  have hstart : ∀ {l : Ledger}, Keeps R (s.declare name ty) l →
      Keeps R t (l.enter (params.map fun p => (p.name, annotatedTy? p.annot))) := by
    intro l hl
    have hentered : Keeps R (s.declare name ty).pushFunction.enter { l with held := fun _ => .nothing } :=
      hl.enter.congr rfl rfl rfl
    exact hentered.bindParams bind made
  constructor
  · intro r
    rw [show v.popFunction.blocks = u.blocks from left.blocks, inner.emits, hblocks,
      Blocks.rows_extend]
    rfl
  · exact inner.paired
  · intro l hl
    have hend := inner.keeps (hstart hl)
    constructor
    · intro x
      rw [State.declared?, show v.popFunction.types = u.types from htypes]
      exact hend.declared x
    · intro x
      rw [State.home_congr s x hscopes]
      exact hl.held x
    · intro x
      rw [show v.popFunction.taken = u.taken from left.taken]
      exact hend.taken x
    · exact hend.plain
  · intro l hl
    exact inner.rooted (hstart hl)
  · intro l final census hl
    rw [inner.agree census (hstart hl), Deed.steadyAll, Deed.steadyAll, Deed.steady, Bool.and_true]

mutual

/-- A pass over statements follows their deeds. -/
theorem Lowers.follows {R : List Row} : ∀ {s s' : State} {stmts : List Stmt}, Lowers s stmts s' →
    s.Placed → (∀ x ∈ Deed.readsAll (Stmt.deedsAll s.inFunction stmts), PlainName x) →
    s'.blocks.rows ⊆ R → ∃ new, Follows R s (Stmt.deedsAll s.inFunction stmts) s' new []
  | s, _, _, .nil, _, _, _ => ⟨[], .of_same rfl rfl rfl rfl⟩
  | s, s', _, @Lowers.simple _ t _ st own stmts one rest, placed, plain, hR => by
    have hnext := one.extension.emitted (.ofHead own)
    rw [Stmt.deedsAll, Deed.readsAll_append] at plain
    have hin : (t.emit (.ofHead own)).inFunction = s.inFunction :=
      State.inFunction_congr s hnext.sites
    obtain ⟨more, hrest⟩ := rest.follows (placed.extension hnext) (by
      intro x hx
      rw [hin] at hx
      exact plain x (List.mem_append_right _ hx)) hR
    obtain ⟨new, hone⟩ := one.follows placed (fun x hx => plain x (List.mem_append_left _ hx))
      fun r hr => hR ((hrest.emits r).mpr (.inl hr))
    rw [hin] at hrest
    exact ⟨_, hone.trans hrest⟩
  | s, s', _, @Lowers.compound _ t u _ st own slots more bodies close stmts opens regions rest, placed,
      plain, hR => by
    obtain ⟨_, _, _, m, opened⟩ := opens.opened
    have hopen := opened.opening.extension
    have hext := hopen.trans ((opened.bodies regions.extension).weaken _)
    have hnext := hext.emitted (.ofHead own (slots ++ more))
    have hcurrent := (placed.extension hext).current_lt
    rw [Stmt.deedsAll, Deed.readsAll_append] at plain
    have hin : ((close u).emit (.ofHead own (slots ++ more))).inFunction = s.inFunction :=
      State.inFunction_congr s hnext.sites
    obtain ⟨others, hrest⟩ := rest.follows (placed.extension hnext) (by
      intro x hx
      rw [hin] at hx
      exact plain x (List.mem_append_right _ hx)) hR
    have hclose : (close u).blocks.rows ⊆ R := by
      intro r hr
      apply hR
      rw [hrest.emits, State.emit, State.emitInto, Blocks.mem_rows_emit _ _ hcurrent]
      exact .inl (.inl hr)
    obtain ⟨pre, xs, hdeeds, takes, results, hfinish, hopens⟩ := opens.follows (R := R) placed
      fun x hx => plain x (List.mem_append_left _ hx)
    rw [hdeeds, Deed.readsAll_append] at plain
    obtain ⟨inside, hinner⟩ := regions.follows ((placed.extension hopen).sameVars opened.start)
      (fun x hx => plain x (List.mem_append_left _ (List.mem_append_right _ hx)))
      (by rwa [← (opened.finish u).blocks])
    obtain ⟨new, hpre⟩ := hopens fun r hr => hclose (((hinner.trans (hfinish u)).emits r).mpr (.inl hr))
    have hall : Follows R s _ ((close u).emit (.ofHead own (slots ++ more))) _ [] :=
      ((hpre.trans hinner).trans (hfinish u)).emit hcurrent takes (by simp) results
    rw [List.append_nil, ← hdeeds] at hall
    rw [hin] at hrest
    exact ⟨_, hall.trans hrest⟩
  | s, s', _, @Lowers.function _ t u v _ name params body stmts decorators returns span formals
      accepted bind inner leave rest, placed, plain, hR => by
    have binds := Lower.binds_of_bindParams bind
    have hext := (Extends.function binds inner.extension (State.left_of_leave? leave)).weaken
      (some s.current)
    have hcurrent := (placed.extension hext).current_lt
    have hnext := hext.emitted (.ofHead (functionHead name decorators formals (annotatedTy? returns))
      [⟨s.blocks.length, some ⟨entryLabel, formals⟩⟩])
    have hbody := binds.inFunction
    rw [Stmt.deedsAll, Deed.readsAll_append, Stmt.deeds, Deed.readsAll, Deed.readsAll, Deed.reads,
      Deed.reads, Deed.readsAll, List.append_nil, List.nil_append] at plain
    obtain ⟨others, hrest⟩ := rest.follows (placed.extension hnext) (by
      intro x hx
      rw [State.inFunction_congr s hnext.sites] at hx
      exact plain x (List.mem_append_right _ hx)) hR
    rw [State.inFunction_congr s hnext.sites] at hrest
    have hrows : ∀ r ∈ v.popFunction.blocks.rows ++ (Staged.ofHead
        (functionHead name decorators formals (annotatedTy? returns))
        [⟨s.blocks.length, some ⟨entryLabel, formals⟩⟩]).rows, r ∈ R := by
      intro r hr
      apply hR
      rw [hrest.emits, State.emit, State.emitInto, Blocks.mem_rows_emit _ _ hcurrent]
      exact .inl (List.mem_append.mp hr)
    have hmade : ∀ p ∈ formals, Defines R p.1 p.2 := by
      intro p hp
      refine ⟨.label ⟨entryLabel, formals⟩, ?_, hp, List.mem_map_of_mem hp⟩
      apply hrows
      rw [Staged.rows_ofHead]
      simp [Slot.rows]
    obtain ⟨inside, hinner⟩ := inner.follows (binds.placed placed) (by
      intro x hx
      rw [hbody] at hx
      exact plain x (List.mem_append_left _ hx)) (by
      intro r hr
      rw [← (State.left_of_leave? leave).blocks] at hr
      exact hrows r (List.mem_append_left _ hr))
    rw [hbody] at hinner
    have hfunction := (Follows.declare s name (annotatedTy? returns)).trans
      (.function bind hmade hinner inner.extension.toFrame leave)
    obtain ⟨htakes, hresults⟩ := functionHead_takes name decorators formals (annotatedTy? returns)
    exact ⟨_, (hfunction.emit hcurrent htakes (by simp) hresults).trans hrest⟩

theorem LowersBodies.follows {R : List Row} : ∀ {s s' : State} {bodies : List (List Stmt)}
    {slots : List Slot}, LowersBodies s bodies slots s' → s.Placed →
    (∀ x ∈ Deed.readsAll (bodies.flatMap (Stmt.deedsAll s.inFunction)), PlainName x) →
    s'.blocks.rows ⊆ R →
    ∃ new, Follows R s (bodies.flatMap (Stmt.deedsAll s.inFunction)) s' new []
  | s, _, _, _, .nil, _, _, _ => ⟨[], .of_same rfl rfl rfl rfl⟩
  | s, s', _, _, @LowersBodies.cons _ t u _ stmts bodies slots inner leave rest, placed, plain, hR => by
    have hregion := inner.extension.region (State.left_of_leave? leave)
    have hin : u.inFunction = s.inFunction := State.inFunction_congr s hregion.sites
    rw [List.flatMap_cons, Deed.readsAll_append] at plain
    obtain ⟨more, hrest⟩ := rest.follows (placed.extension (hregion.weaken _)) (by
      intro x hx
      rw [hin] at hx
      exact plain x (List.mem_append_right _ hx)) hR
    have hleave : Follows R t [] u [] [] := .leave leave
    obtain ⟨new, hinner⟩ := inner.follows placed.enter
      (fun x hx => plain x (List.mem_append_left _ hx))
      fun r hr => hR (((hleave.trans hrest).emits r).mpr (.inl hr))
    rw [hin] at hrest
    have hone := ((Follows.enter s).trans hinner).trans hleave
    rw [List.append_nil] at hone
    exact ⟨_, hone.trans hrest⟩

end

/-- Every id has a type wherever it stands. Results of expressions and loads are used with the type they
are produced with; and so are the ids of variables just if the program is steady. -/
theorem use_types_agree_iff_steady {stmts : List Stmt} {op : Operator}
    (accepted : (SourceUnit.module stmts).lower = .ok op)
    (plain : ∀ x ∈ Act.namesAll (Stmt.actsAll false stmts), PlainName x) :
    (∀ r ∈ op.rows, r.Paired) ∧
    (∀ v ty ty', (v, ty) ∈ op.uses → (v, ty') ∈ op.makes → v ∉ op.varIds → ty = ty') ∧
    ((∀ v ty ty', (v, ty) ∈ op.uses → (v, ty') ∈ op.makes → ty = ty') ↔
      Stmt.steady stmts = true) := by
  obtain ⟨t, lowers, hrows, hdraws⟩ := SourceUnit.rows_of_lower accepted
  obtain ⟨new, follows⟩ := lowers.follows State.initial_placed
    (fun x hx => plain x (Stmt.readsAll_deedsAll stmts false hx))
    fun r hr => (hrows r).mpr (.inr hr)
  have follows : Follows op.rows State.initial (Stmt.deedsAll false stmts) t new [] := follows
  have hnew : ∀ r, r ∈ t.blocks.rows ↔ r ∈ new := by
    intro r
    rw [follows.emits]
    exact or_iff_right (by simp [State.initial, State.enter, State.record, Blocks.rows, Blocks.extend])
  have hpaired : ∀ r ∈ op.rows, r.Paired := by
    intro r hr
    rcases (hrows r).mp hr with rfl | hr
    · exact ⟨rfl, rfl⟩
    · exact follows.paired r ((hnew r).mp hr)
  have huses : ∀ p, p ∈ op.uses ↔ p ∈ new.flatMap Row.uses ++ [] := by
    intro p
    simp only [Operator.uses, List.append_nil, List.mem_flatMap, hrows, hnew, or_and_right, exists_or,
      exists_eq_left, Row.uses, Head.operands]
    simp
  have hstart := Keeps.initial op.rows
  have hend := follows.keeps hstart
  have census := hend.census (hdraws plain) hpaired
  refine ⟨hpaired, ?_, ?_⟩
  · intro v ty ty' huse hmade hvar
    rcases follows.rooted hstart (v, ty) ((huses _).mp huse) with hroot | hroot | ⟨x, hx, hroot⟩
    · exact census.unique v ty ty' hroot hmade
    · exact absurd hroot hvar
    · subst hroot
      exact absurd (hend.plain x ty' ((census.plain x hx ty').mp hmade)).varId hvar
  · rw [Stmt.steady, ← follows.agree census hstart]
    constructor
    · intro hall p hp ty hmade
      exact hall p.1 p.2 ty ((huses p).mpr hp) hmade
    · intro hall v ty ty' huse hmade
      exact hall (v, ty) ((huses _).mp huse) ty' hmade

/-- A function that adds to an annotated variable in a loop, called with the result of another call. -/
def annotatedTotalProgram : List Stmt :=
  [.function "sum" [⟨"n", some (.ofName "int")⟩] (some (.ofName "int"))
      [.annAssign "total" (.ofName "int") (some (.ofName "n")),
        .whileDo (.ofName "n") [.assign "total" (.binOp (.ofName "total") .add (.ofName "n"))],
        .ret (some (.ofName "total"))],
    .assign "result" (.call (.ofName "sum") [.ofInt 3] []),
    .expr (.call (.ofName "sum") [.ofName "result"] [])]

theorem annotatedTotalProgram_types_agree :
    ∃ op, (SourceUnit.module annotatedTotalProgram).lower = .ok op ∧
      (op.uses.map fun p => p.1.text) =
        ["%n", "%total", "%n", "%total", "%n", "%0", "%total.1", "%2", "%3", "%result", "%4"] ∧
      ∀ v ty ty', (v, ty) ∈ op.uses → (v, ty') ∈ op.makes → ty = ty' := by
  obtain ⟨op, accepted, huses⟩ := SourceUnit.exists_of_view
    (show (SourceUnit.module annotatedTotalProgram).lower.toOption.map
      (fun op => op.uses.map fun p => p.1.text) = some ["%n", "%total", "%n", "%total",
        "%n", "%0", "%total.1", "%2", "%3", "%result", "%4"] by decide +kernel)
  have hnames : Act.namesAll (Stmt.actsAll false annotatedTotalProgram) =
      ["n", "n", "total", "n", "total", "n", "total", "total", "result", "result"] := rfl
  refine ⟨op, accepted, huses, (use_types_agree_iff_steady accepted ?_).2.2.mpr (by decide)⟩
  rw [hnames]
  simp [PlainName]

/-- A parameter whose name is declared anew before it is returned. -/
def redeclaredParameterProgram : List Stmt :=
  [.function "f" [⟨"a", some (.ofName "int")⟩] none
    [.annAssign "a" (.ofName "str") none, .ret (some (.ofName "a"))]]

theorem redeclaredParameterProgram_types_differ :
    ∃ op, (SourceUnit.module redeclaredParameterProgram).lower = .ok op ∧
      (.named "a", .named "str") ∈ op.uses ∧ (.named "a", .named "int") ∈ op.makes := by
  obtain ⟨op, accepted, hview⟩ := SourceUnit.exists_of_view
    (show (SourceUnit.module redeclaredParameterProgram).lower.toOption.map
      (fun op => (op.uses, op.makes)) =
        some ([(.named "a", .named "str")], [(.named "a", .named "int")]) by decide)
  obtain ⟨huses, hmakes⟩ := Prod.mk.inj hview
  exact ⟨op, accepted, by simp [huses], by simp [hmakes]⟩

end RegionIR
