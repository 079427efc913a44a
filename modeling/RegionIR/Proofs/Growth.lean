import RegionIR.Proofs.Assembly
/-!
# The operators of a finished program

`Grows Z s stmts s' ops` says which operators a pass over statements puts into the current block, in
their final form. Stores that promotion adds later are there too: those that come while a statement
is still being lowered stand before its operator, and those that come after a region has been left
stand at its end. `Z` lists the variables that are in memory once the scope is complete.
-/
namespace RegionIR

open Lower (Runs)

/-- The current block gains the operators `hs`, none of which has regions. -/
def Gains (s t : State) (hs : List Head) : Prop :=
  t.blocks.contents s.current = s.blocks.contents s.current ++ hs.map (Staged.ofHead ·)

mutual

inductive Grows : List String → State → List Stmt → State → List Operator → Prop
  | nil {Z : List String} {s : State} : Grows Z s [] s []
  | simple {Z : List String} {s t s' : State} {st : Stmt} {own : Head} {stmts : List Stmt}
      {hs : List Head} {ops : List Operator} (one : Simple s st own t) (gains : Gains s t hs)
      (rest : Grows Z (t.emit (.ofHead own)) stmts s' ops) :
      Grows Z s (st :: stmts) s' (hs.map .leaf ++ .leaf own :: ops)
  | compound {Z : List String} {s t m u s' : State} {st : Stmt} {own : Head}
      {slots more : List Slot} {bodies : List (List Stmt)} {close : State → State} {pre : List Act} {hs : List Head}
      {regions others : List Region} {stmts : List Stmt} {ls : List Late} {ops : List Operator}
      (opens : Opens s st own slots bodies t close)
      (opened : Opened s st own slots bodies t close pre hs regions m)
      (inner : GrowsBodies Z t bodies more u others)
      (retro : Retro (fun a v => s.home a = .pending s.current v ∧ (close u).home a = .memory) ls)
      (rest : Grows Z ((close u).emit (.ofHead own (slots ++ more))) stmts s' ops) :
      Grows Z s (st :: stmts) s'
        ((hs ++ ls.map Late.head).map .leaf ++ .mk own (regions ++ others) :: ops)
  | function {Z : List String} {s t u v s' : State} {name : String} {params : Params}
      {body stmts : List Stmt} {decorators : List Expr} {returns : Option Expr} {span : Option Span}
      {formals : List (ValueId × Ty)} {inside ops : List Operator}
      (accepted : params.refused? = none)
      (bind : Runs (Lower.bindParams s.blocks.length params.plain)
        ((s.declare name (annotatedTy? returns)).pushFunction.enter) formals t)
      (inner : Grows u.scope.memory t body u inside) (leave : u.leave? s.blocks.length = some v)
      (rest : Grows Z (v.popFunction.emit
        (.ofHead (functionHead name decorators formals (annotatedTy? returns))
          [⟨s.blocks.length, some ⟨entryLabel, formals⟩⟩])) stmts s' ops) :
      Grows Z s (.mk (.functionDef name params body decorators returns) span :: stmts) s'
        (.mk (functionHead name decorators formals (annotatedTy? returns))
          [.single (some ⟨entryLabel, formals⟩) inside] :: ops)

/-- The regions of bodies, each with the stores that come after it has been left. -/
inductive GrowsBodies :
    List String → State → List (List Stmt) → List Slot → State → List Region → Prop
  | nil {Z : List String} {s : State} : GrowsBodies Z s [] [] s []
  | cons {Z : List String} {s t u s' : State} {stmts : List Stmt} {bodies : List (List Stmt)}
      {slots : List Slot} {ops : List Operator} {ls : List Late} {regions : List Region}
      (inner : Grows Z s.enter stmts t ops) (leave : t.leave? s.blocks.length = some u)
      (late : Retro (fun a v => t.home a = .pending s.blocks.length v ∧ a ∈ Z) ls)
      (rest : GrowsBodies Z u bodies slots s' regions) :
      GrowsBodies Z s (stmts :: bodies) (⟨s.blocks.length, none⟩ :: slots) s'
        (.single none (ops ++ (ls.map Late.head).map .leaf) :: regions)

end

mutual

theorem Grows.lowers : ∀ {Z : List String} {s s' : State} {stmts : List Stmt} {ops : List Operator},
    Grows Z s stmts s' ops → Lowers s stmts s'
  | _, _, _, _, _, .nil => .nil
  | _, _, _, _, _, .simple one _ rest => .simple one rest.lowers
  | _, _, _, _, _, .compound opens _ inner _ rest => .compound opens inner.lowers rest.lowers
  | _, _, _, _, _, .function accepted bind inner leave rest =>
    .function accepted bind inner.lowers leave rest.lowers

theorem GrowsBodies.lowers : ∀ {Z : List String} {s s' : State} {bodies : List (List Stmt)}
    {slots : List Slot} {regions : List Region}, GrowsBodies Z s bodies slots s' regions →
    LowersBodies s bodies slots s'
  | _, _, _, _, _, _, .nil => .nil
  | _, _, _, _, _, _, .cons inner leave _ rest => .cons inner.lowers leave rest.lowers

end

/-- Induction along the statements of one list, which does not go into their bodies. -/
theorem Grows.along {Z : List String} {s' : State}
    {motive : ∀ (s : State) (stmts : List Stmt) (ops : List Operator), Grows Z s stmts s' ops → Prop}
    (nil : motive s' [] [] .nil)
    (simple : ∀ {s t : State} {st : Stmt} {own : Head} {stmts : List Stmt} {hs : List Head}
      {ops : List Operator} (one : Simple s st own t) (gains : Gains s t hs)
      (rest : Grows Z (t.emit (.ofHead own)) stmts s' ops), motive _ _ _ rest →
      motive s (st :: stmts) _ (.simple one gains rest))
    (compound : ∀ {s t m u : State} {st : Stmt} {own : Head} {slots more : List Slot}
      {bodies : List (List Stmt)} {close : State → State} {pre : List Act} {hs : List Head}
      {regions others : List Region} {stmts : List Stmt} {ls : List Late} {ops : List Operator}
      (opens : Opens s st own slots bodies t close)
      (opened : Opened s st own slots bodies t close pre hs regions m)
      (inner : GrowsBodies Z t bodies more u others)
      (retro : Retro (fun a v => s.home a = .pending s.current v ∧ (close u).home a = .memory) ls)
      (rest : Grows Z ((close u).emit (.ofHead own (slots ++ more))) stmts s' ops), motive _ _ _ rest →
      motive s (st :: stmts) _ (.compound opens opened inner retro rest))
    (function : ∀ {s t u v : State} {name : String} {params : Params} {body stmts : List Stmt}
      {decorators : List Expr} {returns : Option Expr} {span : Option Span}
      {formals : List (ValueId × Ty)} {inside ops : List Operator} (accepted : params.refused? = none)
      (bind : Runs (Lower.bindParams s.blocks.length params.plain)
        ((s.declare name (annotatedTy? returns)).pushFunction.enter) formals t)
      (inner : Grows u.scope.memory t body u inside) (leave : u.leave? s.blocks.length = some v)
      (rest : Grows Z (v.popFunction.emit
        (.ofHead (functionHead name decorators formals (annotatedTy? returns))
          [⟨s.blocks.length, some ⟨entryLabel, formals⟩⟩])) stmts s' ops), motive _ _ _ rest →
      motive s (.mk (.functionDef name params body decorators returns) span :: stmts) _
        (.function accepted bind inner leave rest)) :
    ∀ {s : State} {stmts : List Stmt} {ops : List Operator} (grows : Grows Z s stmts s' ops),
      motive s stmts ops grows
  | _, _, _, .nil => nil
  | _, _, _, .simple one gains rest => simple one gains rest (along nil simple compound function rest)
  | _, _, _, .compound opens opened inner retro rest =>
    compound opens opened inner retro rest (along nil simple compound function rest)
  | _, _, _, .function accepted bind inner leave rest =>
    function accepted bind inner leave rest (along nil simple compound function rest)

/-- Every block in use has been opened. -/
structure State.Placed (s : State) : Prop where
  nonempty : s.nesting ≠ []
  nesting : ∀ b ∈ s.nesting, b < s.blocks.length
  pending : ∀ a b v, s.home a = .pending b v → b < s.blocks.length

namespace State.Placed

variable {s t : State}

theorem current_mem (h : s.Placed) : s.current ∈ s.nesting := by
  obtain ⟨top, rest, hn⟩ := List.exists_cons_of_ne_nil h.nonempty
  simp [State.current, hn]

theorem current_lt (h : s.Placed) : s.current < s.blocks.length := h.nesting _ h.current_mem

theorem extension (h : s.Placed) (ext : Extends (some s.current) s t) : t.Placed where
  nonempty := by rw [ext.nesting]; exact h.nonempty
  nesting b hb := by
    rw [ext.nesting] at hb
    exact (h.nesting b hb).trans_le ext.length
  pending a b v hp := by
    have hcurrent := h.current_lt
    have hlen := ext.length
    rcases ext.origin a b v hp with hs | hs | hs
    · exact (h.pending a b v hs).trans_le hlen
    · cases hs
      omega
    · exact hs.2

theorem sameVars (h : s.Placed) (same : SameVars s t) : t.Placed where
  nonempty := by rw [same.nesting]; exact h.nonempty
  nesting := by rw [same.nesting, same.blocks]; exact h.nesting
  pending a b v hp := by
    rw [same.home] at hp
    rw [same.blocks]
    exact h.pending a b v hp

theorem enter (h : s.Placed) : s.enter.Placed where
  nonempty := by simp [State.enter, State.record]
  nesting b hb := by
    simp only [State.enter, State.record, List.mem_cons, Blocks.length_extend] at hb ⊢
    rcases hb with rfl | hb
    · omega
    · have := h.nesting b hb
      omega
  pending a b v hp := by
    have := h.pending a b v hp
    simp only [State.enter, State.record, Blocks.length_extend]
    omega

end State.Placed

theorem Late.map_staged (ls : List Late) :
    ls.map Late.staged = (ls.map Late.head).map (Staged.ofHead ·) := by
  rw [List.map_map]
  rfl

private theorem Staged.ofHead_injective : Function.Injective (Staged.ofHead ·) := by
  intro a b hab
  simpa [Staged.ofHead] using hab

theorem Gains.unique {s t : State} {hs ks : List Head} (h : Gains s t hs) (k : Gains s t ks) :
    hs = ks := by
  have hmap : hs.map (Staged.ofHead ·) = ks.map (Staged.ofHead ·) :=
    List.append_cancel_left (h.symm.trans k)
  exact List.map_injective_iff.mpr Staged.ofHead_injective hmap

theorem Settles.gains {s s₀ m t : State} {hs : List Head} {args : List ValueId} {writes : List Act}
    {own : Head} (settles : Settles m args writes own t) (same : Alike s s₀) (happ : Appended s₀ hs m)
    (hlt : s.current < s.blocks.length) : t.blocks.length = s.blocks.length ∧
      ∃ ls : List Late, Gains s t (hs ++ ls.map Late.head) ∧
        Retro (fun a v => s.home a = .pending s.current v ∧ t.home a = .memory) ls := by
  have hcur : m.current = s.current := by rw [happ.current, same.current]
  rw [← same.current, ← same.blocks] at hlt
  obtain ⟨hlen, ls, hls, retro⟩ := settles.stored (by
    rw [happ.current, happ.length_blocks]
    exact hlt)
  refine ⟨by rw [hlen, happ.length_blocks, same.blocks], ls, ?_, ?_⟩
  · have hline := happ.contents_current hlt
    rw [same.current, same.blocks] at hline
    rw [Gains, ← hcur, hls, hcur, hline, Late.map_staged, List.map_append, List.append_assoc]
  · refine retro.congr fun a v => ?_
    rw [hcur, happ.home, same.home]

theorem Simple.gains {s t : State} {st : Stmt} {own : Head} (one : Simple s st own t)
    (hlt : s.current < s.blocks.length) : t.blocks.length = s.blocks.length ∧
      ∃ s₀ reads hs args m writes ls, Gains s t (hs ++ ls.map Late.head) ∧ Alike s s₀ ∧
        Flat s₀ reads hs args.reverse m ∧ Settles m args writes own t ∧
        st.acts s.inFunction = reads.map Act.read ++ writes ∧
        Retro (fun a v => s.home a = .pending s.current v ∧ t.home a = .memory) ls := by
  obtain ⟨s₀, reads, hs, args, m, writes, same, flat, settles, acts⟩ := one.settles
  obtain ⟨hlen, ls, gains, retro⟩ := settles.gains same flat.appended hlt
  exact ⟨hlen, s₀, reads, hs, args, m, writes, ls, gains, same, flat, settles, acts, retro⟩

theorem Simple.gained {s t : State} {st : Stmt} {own : Head} {hs : List Head} (one : Simple s st own t)
    (placed : s.Placed) (gains : Gains s t hs) :
    ∃ s₀ reads line args m writes ls, hs = line ++ ls.map Late.head ∧ Alike s s₀ ∧
      Flat s₀ reads line args.reverse m ∧ Settles m args writes own t ∧
      st.acts s.inFunction = reads.map Act.read ++ writes ∧
      Retro (fun a v => s.home a = .pending s.current v ∧ t.home a = .memory) ls := by
  obtain ⟨-, s₀, reads, line, args, m, writes, ls, gains', spelled⟩ := one.gains placed.current_lt
  exact ⟨s₀, reads, line, args, m, writes, ls, gains.unique gains', spelled⟩

/-- The final blocks `F` hold what the state `s` has in the blocks from `lo` on, followed by the stores
of variables that are pending there and are in memory in the end. -/
structure Fits (F : Blocks) (Z : List String) (lo : Nat) (s : State) : Prop where
  late : ∀ b, lo ≤ b → b < s.blocks.length → ∃ ls : List Late,
    F.contents b = s.blocks.contents b ++ ls.map Late.staged ∧
      Retro (fun a v => s.home a = .pending b v ∧ a ∈ Z) ls
  moved : ∀ a, s.home a = .memory → a ∈ Z

namespace Fits

variable {F : Blocks} {Z : List String} {lo hi : Nat} {s t : State}

theorem mono (h : Fits F Z lo s) (hle : lo ≤ hi) : Fits F Z hi s :=
  ⟨fun b hb => h.late b (hle.trans hb), h.moved⟩

private theorem sameVars (h : Fits F Z lo t) (same : SameVars s t) : Fits F Z lo s where
  late b hb hb' := by
    rw [← same.blocks] at hb'
    obtain ⟨ls, hls, retro⟩ := h.late b hb hb'
    exact ⟨ls, by rw [hls, same.blocks], retro.congr fun a v => by rw [same.home]⟩
  moved a hm := h.moved a (by rw [same.home, hm])

private theorem left {b : Nat} (h : Fits F Z lo t) (left : Left s b t) : Fits F Z lo s where
  late c hc hc' := by
    rw [← left.blocks] at hc'
    obtain ⟨ls, hls, retro⟩ := h.late c hc hc'
    exact ⟨ls, by rw [hls, left.blocks], retro.congr fun a v => by rw [left.home]⟩
  moved a hm := h.moved a (by rw [left.home, hm])

private theorem before {own : Option Nat} (h : Fits F Z lo t) (ext : Extends own s t)
    (hown : ∀ c, own = some c → c < lo) : Fits F Z lo s where
  late b hb hb' := by
    have hne : some b ≠ own := by
      intro heq
      have := hown b heq.symm
      omega
    obtain ⟨ls, hls, retro⟩ := ext.stored b hb' hne
    obtain ⟨ks, hks, retro'⟩ := h.late b hb (hb'.trans_le ext.length)
    refine ⟨ls ++ ks, by rw [hks, hls, List.map_append, List.append_assoc], ?_⟩
    refine (retro.append retro' ?_).congr ?_
    · rintro a v w ⟨-, hm⟩ ⟨hp, -⟩
      rw [hm] at hp
      exact Home.noConfusion hp
    · intro a v
      constructor
      · rintro (⟨hp, hm⟩ | ⟨hp, hz⟩)
        · exact ⟨hp, h.moved a hm⟩
        · rcases ext.origin a b v hp with hs | hs | hs
          · exact ⟨hs, hz⟩
          · exact absurd hs hne
          · omega
      · rintro ⟨hp, hz⟩
        rcases ext.pending a b v hp with ht | ht
        · exact .inr ⟨ht, hz⟩
        · exact .inl ⟨hp, ht⟩
  moved a hm := h.moved a (ext.memory a hm)

private theorem of_finished
    (h : ∀ b, lo ≤ b → b < s.blocks.length → F.contents b = s.blocks.contents b) :
    Fits F s.scope.memory lo s where
  late b hb hb' := by
    refine ⟨[], by simp [h b hb hb'], .nil ?_⟩
    rintro a v ⟨hp, hz⟩
    rw [State.home, (Scope.home_eq_memory _ _).mpr hz] at hp
    exact Home.noConfusion hp
  moved a hm := (Scope.home_eq_memory _ _).mp hm

private theorem contents_eq (h : Fits F Z lo s) {b : Nat} (hb : lo ≤ b) (hb' : b < s.blocks.length)
    (none : ∀ a v, s.home a ≠ .pending b v) : F.contents b = s.blocks.contents b := by
  obtain ⟨ls, hls, retro⟩ := h.late b hb hb'
  rw [hls, retro.eq_nil fun a v hp => none a v hp.1, List.map_nil, List.append_nil]

end Fits

theorem Flat.yields {s u v : State} {reads : List String} {hs : List Head} {x : Operand}
    (flat : Flat s.enter reads hs [x.1] u)
    (leave : (u.emit (.ofHead (yieldHead x))).leave? s.blocks.length = some v) :
    v.blocks.length = s.blocks.length + 1 ∧
      v.blocks.contents s.blocks.length = (hs ++ [yieldHead x]).map (Staged.ofHead ·) ∧
      ∀ a, v.home a = s.home a := by
  have happ := flat.appended
  have left := State.left_of_leave? leave
  have hlen : s.enter.blocks.length = s.blocks.length + 1 := Blocks.length_extend _
  have hcur : u.current = s.blocks.length := happ.current
  have hempty : s.enter.blocks.contents s.blocks.length = [] := by
    rw [show s.enter.blocks = s.blocks.extend from rfl, Blocks.contents_extend,
      Blocks.contents_of_length_le _ _ le_rfl]
  refine ⟨?_, ?_, ?_⟩
  · rw [left.blocks, State.emit, State.emitInto, Blocks.length_emit, happ.length_blocks, hlen]
  · have hline := happ.contents_current (show s.enter.current < s.enter.blocks.length by
      rw [hlen]
      exact Nat.lt_succ_self _)
    rw [show s.enter.current = s.blocks.length from rfl, hempty, List.nil_append] at hline
    rw [left.blocks, State.emit, State.emitInto, hcur,
      Blocks.contents_emit_self _ _ _ (by rw [happ.length_blocks, hlen]; omega), hline,
      List.map_append]
    rfl
  · intro a
    rw [left.home]
    exact happ.home a

private theorem Flat.opened {s u v m : State} {reads : List String} {hs : List Head} {x : Operand}
    {writes : List Act} (flat : Flat s.enter reads hs [x.1] u)
    (leave : (u.emit (.ofHead (yieldHead x))).leave? s.blocks.length = some v)
    (written : writes = [] ∧ m = v ∨ ∃ name, writes = [.touch name] ∧ Write v name none m)
    (placed : s.Placed) : m.blocks.length = s.blocks.length + 1 ∧
      m.blocks.contents s.blocks.length = (hs ++ [yieldHead x]).map (Staged.ofHead ·) ∧
      ∀ a w, m.home a ≠ .pending s.blocks.length w := by
  obtain ⟨hlen, hcontents, hhome⟩ := flat.yields leave
  have hfree : ∀ a w, v.home a ≠ .pending s.blocks.length w := by
    intro a w hp
    rw [hhome] at hp
    exact absurd (placed.pending a _ w hp) (lt_irrefl _)
  obtain ⟨-, rfl⟩ | ⟨name, -, write⟩ := written
  · exact ⟨hlen, hcontents, hfree⟩
  · obtain ⟨ls, hls, retro⟩ := write.stored (by omega : s.blocks.length < v.blocks.length)
    refine ⟨by rw [write.length_blocks, hlen], ?_, ?_⟩
    · rw [hls, retro.eq_nil fun a w hp => hfree a w hp.1, List.map_nil, List.append_nil, hcontents]
    · intro a w hp
      rcases write.extension.origin a _ w hp with h | h | h
      · exact hfree a w h
      · simp at h
      · have := write.length_blocks
        omega

namespace Opening

variable {s m w : State} {pre : List Act} {hs : List Head} {slots : List Slot} {regions : List Region}
  {args : List ValueId}

theorem gains (h : Opening s pre hs slots regions args m) (hcur : s.current < s.blocks.length)
    (ext : Extends none m w) : ∃ ls : List Late, Gains s w (hs ++ ls.map Late.head) ∧
      Retro (fun a v => s.home a = .pending s.current v ∧ w.home a = .memory) ls := by
  cases h with
  | inline flat =>
    have happ := flat.appended
    obtain ⟨ls, hls, retro⟩ := ext.stored s.current (by rw [happ.length_blocks]; exact hcur) (by simp)
    refine ⟨ls, ?_, retro.congr fun a v => by rw [happ.home]⟩
    rw [Gains, hls, happ.contents_current hcur, Late.map_staged, List.map_append, List.append_assoc]
  | loop flat leave written =>
    obtain ⟨ls, hls, retro⟩ :=
      ((Extends.of_loop flat leave written).trans ext).stored s.current hcur (by simp)
    exact ⟨ls, by rw [Gains, hls, Late.map_staged, List.nil_append], retro⟩

private theorem unfolds {F : Blocks} {Z : List String} (h : Opening s pre hs slots regions args m)
    (placed : s.Placed) (fits : Fits F Z s.blocks.length m) :
    UnfoldsSlots F s.blocks.length slots m.blocks.length regions := by
  cases h with
  | inline flat =>
    rw [flat.appended.length_blocks]
    exact .nil
  | @loop _ hs x _ v _ _ flat leave written =>
    obtain ⟨hlen, hcontents, hfree⟩ := flat.opened leave written placed
    have hF : F.contents s.blocks.length = (hs ++ [yieldHead x]).map (Staged.ofHead ·) := by
      rw [fits.contents_eq le_rfl (by omega) hfree, hcontents]
    rw [hlen]
    refine .cons ?_ .nil
    rw [hF]
    exact .leaves _

/-- The blocks tell what a compound statement has before its bodies. -/
theorem unique {m' : State} {pre' : List Act} {hs' : List Head} {regions' : List Region}
    {args' : List ValueId} (h : Opening s pre hs slots regions args m)
    (h' : Opening s pre' hs' slots regions' args' m') (placed : s.Placed) (hblocks : m.blocks = m'.blocks) :
    hs = hs' ∧ regions = regions' := by
  cases h with
  | inline flat =>
    cases h' with
    | inline flat' =>
      have gains : Gains s m hs := flat.appended.contents_current placed.current_lt
      have gains' : Gains s m' hs' := flat'.appended.contents_current placed.current_lt
      rw [Gains, ← hblocks] at gains'
      exact ⟨gains.unique gains', rfl⟩
  | @loop _ hs x _ _ _ _ flat leave written =>
    cases h' with
    | @loop _ ks y _ _ _ _ flat' leave' written' =>
      obtain ⟨-, hline, -⟩ := flat.opened leave written placed
      obtain ⟨-, hline', -⟩ := flat'.opened leave' written' placed
      rw [hblocks, hline'] at hline
      have hsame : hs ++ [yieldHead x] = ks ++ [yieldHead y] :=
        List.map_injective_iff.mpr Staged.ofHead_injective hline.symm
      refine ⟨rfl, ?_⟩
      rw [yieldRegion, yieldRegion, hsame]

end Opening

theorem Binds.placed {s t : State} {names : List String} {values : List ValueId} {name : String}
    {ty : Ty} (binds : Binds s.blocks.length (s.declare name ty).pushFunction.enter names values t)
    (h : s.Placed) : t.Placed := by
  obtain ⟨-, hblocks, -, -, hnesting⟩ := binds.entry
  refine ⟨by simp [hnesting], ?_, ?_⟩
  · intro b hb
    rw [hnesting] at hb
    rw [hblocks, Blocks.length_extend]
    rcases List.mem_cons.mp hb with rfl | hb
    · omega
    · have := h.nesting b hb
      omega
  · intro a b v hp
    rw [hblocks, Blocks.length_extend, (binds.of_pending hp).2.2]
    exact Nat.lt_succ_self _

private theorem grow_step {F : Blocks} {s w s' : State} {op : Staged} {hs : List Head}
    {items : List Staged} {regions : List Region} {ops : List Operator} (placed : s.Placed)
    (ext : Extends (some s.current) s w) (gains : Gains s w hs)
    (contents : s'.blocks.contents (w.emit op).current =
      (w.emit op).blocks.contents (w.emit op).current ++ items)
    (slots : UnfoldsSlots F s.blocks.length op.slots w.blocks.length regions)
    (rest : Unfolds F (w.emit op).blocks.length items s'.blocks.length ops) :
    s'.blocks.contents s.current =
        s.blocks.contents s.current ++ (hs.map (Staged.ofHead ·) ++ op :: items) ∧
      Unfolds F s.blocks.length (hs.map (Staged.ofHead ·) ++ op :: items) s'.blocks.length
        (hs.map .leaf ++ .mk op.op.head (op.op.regions ++ regions) :: ops) := by
  have hcur : (w.emit op).current = s.current := ext.current
  have hlen : (w.emit op).blocks.length = w.blocks.length := Blocks.length_emit _ _ _
  have hemit : (w.emit op).blocks.contents s.current = w.blocks.contents s.current ++ [op] := by
    rw [State.emit, State.emitInto, ext.current,
      Blocks.contents_emit_self _ _ _ (placed.current_lt.trans_le ext.length)]
  constructor
  · rw [← hcur, contents, hcur, hemit, gains]
    simp
  · rw [hlen] at rest
    exact (Unfolds.leaves hs).append (.cons slots rest)

mutual

/-- A pass over statements grows operators, and the final blocks spell them. -/
theorem Lowers.grows : ∀ {s s' : State} {stmts : List Stmt}, Lowers s stmts s' → s.Placed →
    ∀ (F : Blocks) (Z : List String), Fits F Z s.blocks.length s' →
    ∃ items ops, s'.blocks.contents s.current = s.blocks.contents s.current ++ items ∧
      Grows Z s stmts s' ops ∧ Unfolds F s.blocks.length items s'.blocks.length ops
  | s, _, _, .nil, _, _, _, _ => ⟨[], [], by simp, .nil, .nil⟩
  | s, s', _, @Lowers.simple _ t _ _ own _ one rest, placed, F, Z, fits => by
    obtain ⟨hlen, s₀, reads, hs, args, m, writes, ls, gains, -⟩ :=
      one.gains placed.current_lt
    have hext := one.extension
    have hnext := hext.emitted (.ofHead own)
    obtain ⟨items, ops, hitems, hgrows, hunfolds⟩ :=
      rest.grows (placed.extension hnext) F Z (fits.mono hnext.length)
    obtain ⟨hcontents, hall⟩ := grow_step placed hext gains hitems (by rw [hlen]; exact .nil) hunfolds
    exact ⟨_, _, hcontents, .simple one gains hgrows, hall⟩
  | s, s', _, @Lowers.compound _ t u _ _ own slots more _ close _ opens regions rest, placed, F, Z,
      fits => by
    obtain ⟨pre, hs, pres, m, opened⟩ := opens.opened
    have hopen := opened.opening.extension
    have hbodies := opened.bodies regions.extension
    have hext := hopen.trans (hbodies.weaken _)
    have hnext := hext.emitted (.ofHead own (slots ++ more))
    have fitsClose : Fits F Z s.blocks.length (close u) := by
      refine fits.before ((Extends.refl _ (close u)).then_emit _ rest.extension) ?_
      rintro c ⟨⟩
      rw [hext.current]
      exact placed.current_lt
    have fitsBodies : Fits F Z t.blocks.length u := by
      refine (fitsClose.sameVars (opened.finish u)).mono ?_
      rw [opened.start.blocks]
      exact hopen.length
    obtain ⟨items, ops, hitems, hgrows, hunfolds⟩ :=
      rest.grows (placed.extension hnext) F Z (fits.mono hnext.length)
    obtain ⟨others, hothers, hslots⟩ :=
      regions.grows ((placed.extension hopen).sameVars opened.start) F Z fitsBodies
    obtain ⟨ls, gains, retro⟩ := opened.opening.gains placed.current_lt hbodies
    have hpres := opened.opening.unfolds placed (fitsClose.before hbodies (by simp))
    rw [opened.start.blocks] at hslots
    rw [← (opened.finish u).blocks] at hslots
    obtain ⟨hcontents, hall⟩ := grow_step placed hext gains hitems (hpres.append hslots) hunfolds
    exact ⟨_, _, hcontents, .compound opens opened hothers retro hgrows, hall⟩
  | s, s', _, @Lowers.function _ t u v _ name params body _ decorators returns span formals accepted
      bind inner leave rest, placed, F, Z, fits => by
    have binds := Lower.binds_of_bindParams bind
    have left := State.left_of_leave? leave
    obtain ⟨hcurrent, hblocks, -, -, -⟩ := binds.entry
    have hfun := Extends.function binds inner.extension left
    have hext := hfun.weaken (some s.current)
    have houter := binds.home_popFunction inner.extension.toFrame left
    have hnext := hext.emitted (.ofHead (functionHead name decorators formals (annotatedTy? returns))
      [⟨s.blocks.length, some ⟨entryLabel, formals⟩⟩])
    have fitsOuter : Fits F Z s.blocks.length v.popFunction := by
      refine fits.before ((Extends.refl _ v.popFunction).then_emit _ rest.extension) ?_
      rintro c ⟨⟩
      rw [hext.current]
      exact placed.current_lt
    -- the scope around a function keeps no value in its blocks
    have hdone : ∀ b, s.blocks.length ≤ b → b < u.blocks.length →
        F.contents b = u.blocks.contents b := by
      intro b hb hb'
      rw [fitsOuter.contents_eq hb (by rwa [show v.popFunction.blocks = u.blocks from left.blocks]) ?_,
        show v.popFunction.blocks = u.blocks from left.blocks]
      intro a w hp
      rw [houter a] at hp
      exact absurd (placed.pending a b w hp) (by omega)
    have hlen : t.blocks.length = s.blocks.length + 1 := by rw [hblocks, Blocks.length_extend]
    have hle := inner.extension.length
    obtain ⟨items, ops, hitems, hgrows, hunfolds⟩ :=
      rest.grows (placed.extension hnext) F Z (fits.mono hnext.length)
    obtain ⟨inside, body, hinside, hbody, hspelled⟩ := inner.grows (binds.placed placed) F
      u.scope.memory (.of_finished fun b hb => hdone b (by omega))
    have hentry : F.contents s.blocks.length = inside := by
      rw [hdone _ le_rfl (by omega), ← hcurrent, hinside, hcurrent, hblocks, Blocks.contents_extend,
        Blocks.contents_of_length_le _ _ le_rfl, List.nil_append]
    have gains : Gains s v.popFunction [] := by
      obtain ⟨ls, hls, retro⟩ := hfun.stored s.current placed.current_lt (by simp)
      have hnil : ls = [] := retro.eq_nil (by
        rintro a w ⟨hp, hm⟩
        rw [houter a, hp] at hm
        exact Home.noConfusion hm)
      rw [Gains, hls, hnil]
      rfl
    have hslots : UnfoldsSlots F s.blocks.length [⟨s.blocks.length, some ⟨entryLabel, formals⟩⟩]
        v.popFunction.blocks.length [.single (some ⟨entryLabel, formals⟩) body] := by
      rw [show v.popFunction.blocks = u.blocks from left.blocks]
      refine .cons ?_ .nil
      rw [hentry, ← hlen]
      exact hspelled
    obtain ⟨hcontents, hall⟩ := grow_step placed hext gains hitems hslots hunfolds
    exact ⟨_, _, hcontents, .function accepted bind hbody leave hgrows, hall⟩

theorem LowersBodies.grows : ∀ {s s' : State} {bodies : List (List Stmt)} {slots : List Slot},
    LowersBodies s bodies slots s' → s.Placed →
    ∀ (F : Blocks) (Z : List String), Fits F Z s.blocks.length s' →
    ∃ regions, GrowsBodies Z s bodies slots s' regions ∧
      UnfoldsSlots F s.blocks.length slots s'.blocks.length regions
  | _, _, _, _, .nil, _, _, _, _ => ⟨[], .nil, .nil⟩
  | s, s', _, _, @LowersBodies.cons _ t u _ _ _ _ inner leave rest, placed, F, Z, fits => by
    have left := State.left_of_leave? leave
    have hregion := inner.extension.region left
    have hlen : s.enter.blocks.length = s.blocks.length + 1 := Blocks.length_extend _
    have hle := inner.extension.length
    have fitsInner : Fits F Z s.blocks.length t := (fits.before rest.extension (by simp)).left left
    obtain ⟨items, ops, hitems, hgrows, hunfolds⟩ :=
      inner.grows placed.enter F Z (fitsInner.mono (by omega))
    obtain ⟨regions, hregions, hslots⟩ := rest.grows (placed.extension (hregion.weaken _)) F Z
      (fits.mono hregion.length)
    obtain ⟨ls, hls, late⟩ := fitsInner.late s.blocks.length le_rfl (by omega)
    have hentry : F.contents s.blocks.length = items ++ (ls.map Late.head).map (Staged.ofHead ·) := by
      rw [hls, Late.map_staged, show s.blocks.length = s.enter.current from rfl, hitems,
        show s.enter.blocks = s.blocks.extend from rfl, Blocks.contents_extend,
        Blocks.contents_of_length_le _ _ (show s.blocks.length ≤ s.enter.current from le_rfl),
        List.nil_append]
    refine ⟨_, .cons hgrows leave late hregions, ?_⟩
    rw [left.blocks] at hslots
    refine .cons ?_ hslots
    rw [hentry, ← hlen]
    exact hunfolds.append (.leaves _)

end

private theorem SourceUnit.runs_of_lower {stmts : List Stmt} {op : Operator}
    (h : (SourceUnit.module stmts).lower = .ok op) : ∃ s', Runs (Lower.module stmts) {} op s' := by
  simp only [SourceUnit.lower, SourceUnit.lowerLogged, Lower.sourceUnit, SourceUnit.body?,
    EStateM.run] at h
  cases hrun : Lower.module stmts {} with
  | ok op' s' =>
    simp only [hrun, Except.ok.injEq] at h
    exact ⟨s', by rw [Runs, hrun, h]⟩
  | error e s' => simp [hrun] at h

theorem SourceUnit.exists_of_view {α : Type} {u : SourceUnit} {view : Operator → α} {a : α}
    (h : u.lower.toOption.map view = some a) : ∃ op, u.lower = .ok op ∧ view op = a := by
  obtain ⟨op, hop, hview⟩ := Option.map_eq_some_iff.mp h
  cases hlower : u.lower with
  | error e => simp [hlower, Except.toOption] at hop
  | ok op' =>
    rw [hlower] at hop
    cases hop
    exact ⟨op, rfl, hview⟩

def State.initial : State := ({} : State).enter

theorem State.initial_placed : State.initial.Placed := by
  refine ⟨by simp [initial, enter, record], ?_, ?_⟩
  · intro b hb
    simpa [initial, enter, record, Blocks.extend] using hb
  · intro a b v hp
    exact Home.noConfusion hp

/-- The tree of an accepted module holds the operators that its statements grow, as the blocks at the end
of the pass spell them. -/
theorem SourceUnit.left_of_lower {stmts : List Stmt} {op : Operator}
    (h : (SourceUnit.module stmts).lower = .ok op) :
    ∃ u t ops, Runs (Lower.region (Lower.body stmts)) {} ⟨0, none⟩ u ∧ t.leave? 0 = some u ∧
      Grows t.scope.memory State.initial stmts t ops ∧
      UnfoldsSlots t.blocks 0 [⟨0, none⟩] t.blocks.length [.single none ops] ∧
      op = .mk (Head.builtin "module") [.single none ops] := by
  obtain ⟨s', run⟩ := runs_of_lower h
  simp only [Lower.module, Lower.runs_bind, Lower.runs_modify, Lower.runs_step] at run
  obtain ⟨slot, u, hregion, _, _, rfl, hop⟩ := run
  obtain ⟨rfl, t, hbody, hleave⟩ := Lower.runs_region hregion
  have left := State.left_of_leave? hleave
  have lowers : Lowers State.initial stmts t := Lower.body_lowers stmts hbody
  obtain ⟨items, ops, hitems, hgrows, hunfolds⟩ := lowers.grows State.initial_placed t.blocks
    t.scope.memory (.of_finished fun _ _ _ => rfl)
  have hentry : t.blocks.contents 0 = items := hitems
  rw [← hentry] at hunfolds
  have hslots : UnfoldsSlots t.blocks 0 [⟨0, none⟩] t.blocks.length [.single none ops] :=
    .cons hunfolds .nil
  have hassemble := Blocks.assemble_eq (h := Head.builtin "module") hslots
  rw [← left.blocks] at hassemble
  have htree : op = .mk (Head.builtin "module") [.single none ops] :=
    (congrArg Prod.fst hop).symm.trans (congrArg Prod.fst hassemble)
  exact ⟨u, t, ops, hregion, hleave, hgrows, hslots, htree⟩

theorem SourceUnit.staged_of_lower {stmts : List Stmt} {op : Operator}
    (h : (SourceUnit.module stmts).lower = .ok op) :
    ∃ u t ops, Runs (Lower.region (Lower.body stmts)) {} ⟨0, none⟩ u ∧ u.blocks = t.blocks ∧
      Grows t.scope.memory State.initial stmts t ops ∧
      UnfoldsSlots t.blocks 0 [⟨0, none⟩] t.blocks.length [.single none ops] ∧
      op = .mk (Head.builtin "module") [.single none ops] := by
  obtain ⟨u, t, ops, run, leave, grows, unfolds, hop⟩ := left_of_lower h
  exact ⟨u, t, ops, run, (State.left_of_leave? leave).blocks, grows, unfolds, hop⟩

theorem SourceUnit.unfolds_of_lower {stmts : List Stmt} {op : Operator}
    (h : (SourceUnit.module stmts).lower = .ok op) :
    ∃ t ops, Grows t.scope.memory State.initial stmts t ops ∧
      UnfoldsSlots t.blocks 0 [⟨0, none⟩] t.blocks.length [.single none ops] ∧
      op = .mk (Head.builtin "module") [.single none ops] := by
  obtain ⟨u, t, ops, -, -, grows, unfolds, hop⟩ := staged_of_lower h
  exact ⟨t, ops, grows, unfolds, hop⟩

theorem SourceUnit.grows_of_lower {stmts : List Stmt} {op : Operator}
    (h : (SourceUnit.module stmts).lower = .ok op) :
    ∃ t ops, Grows t.scope.memory State.initial stmts t ops ∧
      op = .mk (Head.builtin "module") [.single none ops] := by
  obtain ⟨t, ops, grows, -, hop⟩ := unfolds_of_lower h
  exact ⟨t, ops, grows, hop⟩

end RegionIR
