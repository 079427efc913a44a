import RegionIR.Proofs.Jumps
import RegionIR.Proofs.Stops
/-!
# The lives of variables

At every point between two statements, and in every scope that is open there, a variable that is a value
has its definition in the block that is noted for it, and variables have different values. From point to
point a variable goes from undefined to a value to memory, or straight to memory, and never back as long
as its scope is open.
-/
namespace RegionIR

open Lower (Runs)

/-- Every block is still there, with what it had at its front. -/
structure Blocks.Within (bs cs : Blocks) : Prop where
  length : bs.length ≤ cs.length
  contents : ∀ b, bs.contents b <+: cs.contents b

namespace Blocks.Within

variable {bs cs ds : Blocks}

theorem refl (bs : Blocks) : Within bs bs := ⟨le_rfl, fun _ => List.prefix_rfl⟩

theorem of_eq (h : cs = bs) : Within bs cs := by
  rw [h]
  exact .refl bs

theorem trans (h : Within bs cs) (h' : Within cs ds) : Within bs ds :=
  ⟨h.length.trans h'.length, fun b => (h.contents b).trans (h'.contents b)⟩

private theorem emit (bs : Blocks) (b : Nat) (op : Staged) : Within bs (bs.emit b op) := by
  refine ⟨(bs.length_emit b op).ge, fun c => ?_⟩
  by_cases hc : c = b
  · subst hc
    by_cases hlt : c < bs.length
    · rw [bs.contents_emit_self c op hlt]
      exact List.prefix_append _ _
    · rw [bs.contents_of_length_le c (by omega)]
      exact List.nil_prefix
  · rw [bs.contents_emit_of_ne b c op hc]

private theorem extend (bs : Blocks) : Within bs bs.extend := by
  refine ⟨by rw [bs.length_extend]; omega, fun b => ?_⟩
  rw [bs.contents_extend]

private theorem foldl_emit (bs : Blocks) (b : Nat) (hs : List Head) :
    Within bs (hs.foldl (fun bs h => bs.emit b (.ofHead h)) bs) := by
  induction hs generalizing bs with
  | nil => exact .refl bs
  | cons h hs ih => exact (emit bs b (.ofHead h)).trans (ih _)

end Blocks.Within

private theorem Appended.within {s t : State} {hs : List Head} (h : Appended s hs t) :
    s.blocks.Within t.blocks := by
  rw [h.blocks]
  exact .foldl_emit _ _ _

private theorem Write.within {s t : State} {name : String} {r : Option ValueId} (h : Write s name r t) :
    s.blocks.Within t.blocks := by
  cases h with
  | define _ _ blocks => exact .of_eq blocks
  | promote _ _ blocks =>
    rw [blocks]
    exact .emit _ _ _
  | mark _ _ blocks => exact .of_eq blocks
  | stay _ _ blocks => exact .of_eq blocks

private theorem Simple.within {s t : State} {st : Stmt} {own : Head} (one : Simple s st own t) :
    s.blocks.Within t.blocks := by
  obtain ⟨s₀, reads, hs, args, m, writes, same, flat, settles, -⟩ := one.settles
  have hline : s.blocks.Within m.blocks := by
    rw [← same.blocks]
    exact flat.appended.within
  cases settles with
  | plain => exact hline
  | define _ _ _ _ write => exact hline.trans write.within
  | store _ _ write => exact hline.trans write.within
  | through _ _ write => exact hline.trans write.within

private theorem Opening.within {s t : State} {pre : List Act} {hs : List Head} {slots : List Slot}
    {regions : List Region} {args : List ValueId} (h : Opening s pre hs slots regions args t) :
    s.blocks.Within t.blocks := by
  cases h with
  | inline flat => exact flat.appended.within
  | @loop _ _ x u v _ _ flat leave written =>
    have hregion : s.blocks.Within v.blocks := by
      rw [(State.left_of_leave? leave).blocks]
      exact (Blocks.Within.extend _).trans (flat.appended.within.trans (.emit _ _ _))
    obtain ⟨-, rfl⟩ | ⟨name, -, write⟩ := written
    · exact hregion
    · exact hregion.trans write.within

/-- The operator is the first definition of a variable and produces the value. -/
def Head.Introduces (h : Head) (v : ValueId) : Prop :=
  (h.opcode = "py.assign" ∨ h.opcode = "py.cast") ∧ h.results = [v]

/-- The block is there and has the value of the variable: it contains the definition, or it is the entry
block of the function `f`, of which the variable is a parameter with that value. -/
def Blocks.Sources (bs : Blocks) (f : Option OpenFunction) (x : String) (b : Nat) (v : ValueId) : Prop :=
  b < bs.length ∧ ((∃ op ∈ bs.contents b, op.op.head.Introduces v) ∨
    ∃ e, f = some e ∧ e.block = b ∧ (x, v) ∈ e.params)

theorem Blocks.Sources.mono {bs cs : Blocks} {f : Option OpenFunction} {x : String} {b : Nat}
    {v : ValueId} (h : bs.Sources f x b v) (within : bs.Within cs) : cs.Sources f x b v := by
  obtain ⟨hb, ⟨op, hop, hv⟩ | param⟩ := h
  · exact ⟨hb.trans_le within.length, .inl ⟨op, (within.contents b).subset hop, hv⟩⟩
  · exact ⟨hb.trans_le within.length, .inr param⟩

/-- The pending variables of a scope are among `N`, and have their values where it says. -/
def Scope.Grounded (N : String → Prop) (bs : Blocks) (f : Option OpenFunction) (sc : Scope) : Prop :=
  ∀ x b v, sc.home x = .pending b v → N x ∧ bs.Sources f x b v

/-- The scopes of a point belong to the functions it is inside of, and the last one to the module. -/
structure Stop.Grounded (N : String → Prop) (p : Stop) : Prop where
  inside : p.state.nesting ≠ []
  opened : ∀ b ∈ p.state.nesting, b < p.state.blocks.length
  scopes : List.Forall₂ (Scope.Grounded N p.state.blocks) (p.functions.map some ++ [none])
    p.state.scopes

namespace Stop.Grounded

variable {N : String → Prop} {s t : State} {f : OpenFunction} {fs : List OpenFunction}

theorem mono {gs : List (Option OpenFunction)} {bs cs : Blocks} {scopes : List Scope}
    (h : List.Forall₂ (Scope.Grounded N bs) gs scopes) (within : bs.Within cs) :
    List.Forall₂ (Scope.Grounded N cs) gs scopes := by
  refine h.imp fun g sc hsc x b v hp => ?_
  obtain ⟨hx, source⟩ := hsc x b v hp
  exact ⟨hx, source.mono within⟩

private theorem of_scopes (h : Grounded N ⟨s, fs⟩) (scopes : t.scopes = s.scopes)
    (within : s.blocks.Within t.blocks) (inside : t.nesting ≠ [])
    (opened : ∀ b ∈ t.nesting, b < t.blocks.length) : Grounded N ⟨t, fs⟩ := by
  refine ⟨inside, opened, ?_⟩
  show List.Forall₂ (Scope.Grounded N t.blocks) (fs.map some ++ [none]) t.scopes
  rw [scopes]
  exact mono h.scopes within

private theorem update (h : Grounded N ⟨s, fs⟩) (nesting : t.nesting = s.nesting)
    (outer : t.scopes.tail = s.scopes.tail) (hscopes : t.scopes ≠ []) (within : s.blocks.Within t.blocks)
    (new : ∀ x b v, t.home x = .pending b v → s.home x = .pending b v ∨
      N x ∧ b < t.blocks.length ∧ ∃ op ∈ t.blocks.contents b, op.op.head.Introduces v) :
    Grounded N ⟨t, fs⟩ := by
  refine ⟨by rw [nesting]; exact h.inside, ?_, ?_⟩
  · intro b hb
    rw [nesting] at hb
    exact (h.opened b hb).trans_le within.length
  · obtain ⟨top, rest, htop⟩ := List.exists_cons_of_ne_nil hscopes
    have hold := h.scopes
    simp only at hold ⊢
    obtain ⟨g, gs, hgs⟩ : ∃ g gs, fs.map some ++ [none] = g :: gs :=
      List.exists_cons_of_ne_nil (by simp)
    rw [hgs] at hold ⊢
    rw [htop, List.tail_cons] at outer
    cases hs : s.scopes with
    | nil =>
      rw [hs] at hold
      cases hold
    | cons sc others =>
      rw [hs, List.forall₂_cons] at hold
      rw [hs, List.tail_cons] at outer
      rw [htop, outer, List.forall₂_cons]
      refine ⟨fun x b v hp => ?_, mono hold.2 within⟩
      have hhome : s.home x = sc.home x := by rw [State.home, State.scope, hs]; rfl
      have hp : t.home x = .pending b v := by rw [State.home, State.scope, htop]; exact hp
      rcases new x b v hp with hp | ⟨hx, hb, op, hop, hv⟩
      · rw [hhome] at hp
        obtain ⟨hx, source⟩ := hold.1 x b v hp
        exact ⟨hx, source.mono within⟩
      · exact ⟨hx, hb, .inl ⟨op, hop, hv⟩⟩

private theorem current_lt (h : Grounded N ⟨s, fs⟩) : s.current < s.blocks.length := by
  obtain ⟨top, rest, hn⟩ := List.exists_cons_of_ne_nil h.inside
  exact h.opened _ (by simp [State.current, show s.nesting = top :: rest from hn])

private theorem scopes_ne_nil (h : Grounded N ⟨s, fs⟩) : s.scopes ≠ [] := by
  intro hnil
  have hold := h.scopes
  simp [hnil] at hold

private theorem emit (h : Grounded N ⟨s, fs⟩) (op : Staged) : Grounded N ⟨s.emit op, fs⟩ :=
  h.of_scopes rfl (.emit _ _ _) h.inside fun b hb =>
    (h.opened b hb).trans_le (Blocks.length_emit _ _ _).ge

private theorem enter (h : Grounded N ⟨s, fs⟩) : Grounded N ⟨s.enter, fs⟩ := by
  refine h.of_scopes rfl (.extend _) (List.cons_ne_nil _ _) fun b hb => ?_
  rw [show s.enter.blocks.length = s.blocks.length + 1 from Blocks.length_extend _]
  rcases List.mem_cons.mp hb with rfl | hb
  · omega
  · have := h.opened b hb
    simp only at this
    omega

private theorem simple {st : Stmt} {own : Head} (h : Grounded N ⟨s, fs⟩) (one : Simple s st own t)
    (names : ∀ x ∈ Act.namesAll (st.acts s.inFunction), N x) :
    Grounded N ⟨t.emit (.ofHead own), fs⟩ := by
  obtain ⟨s₀, reads, hs, args, m, writes, same, flat, settles, acts⟩ := one.settles
  have ext := one.extension
  have hlt : t.current < t.blocks.length := by
    rw [ext.current]
    exact h.current_lt.trans_le ext.length
  have hcur : m.current = t.current := by rw [flat.appended.current, same.current, ext.current]
  have hhome (x : String) : m.home x = s.home x := by rw [flat.appended.home, same.home]
  refine h.update ext.nesting ext.outer (one.scopes_ne_nil h.scopes_ne_nil)
    (one.within.trans (.emit _ _ _)) ?_
  intro x b v hp
  change t.home x = .pending b v at hp
  rw [← hhome]
  cases settles with
  | plain => exact .inl hp
  | @define _ name value _ dialect opcode results _ write =>
    by_cases hx : x = name
    · subst hx
      cases write with
      | define _ _ _ _ home =>
        rw [home, if_pos rfl, hcur] at hp
        cases hp
        refine .inr ⟨names x ?_, ?_, .ofHead own, ?_, ?_, results⟩
        · rw [acts, Act.namesAll_append, List.mem_append]
          exact .inr (by simp [Act.namesAll, Act.names])
        · exact hlt.trans_le (Blocks.length_emit _ _ _).ge
        · simp only [State.emit, State.emitInto]
          rw [Blocks.contents_emit_self _ _ _ hlt]
          simp
        · rcases opcode with opcode | opcode <;>
            simp [Staged.ofHead, Operator.head, Head.opcode, dialect, opcode, Dialect.text]
    · rw [write.home_of_ne hx] at hp
      exact .inl hp
  | store _ _ write => exact .inl (write.pending_before hp)
  | through _ _ write => exact .inl (write.pending_before hp)

private theorem opens {st : Stmt} {own : Head} {slots : List Slot} {bodies : List (List Stmt)}
    {close : State → State} (h : Grounded N ⟨s, fs⟩) (opens : Opens s st own slots bodies t close) :
    Grounded N ⟨t, fs⟩ := by
  obtain ⟨pre, hs, regions, m, opened⟩ := opens.opened
  have ext := opened.opening.extension
  have start := opened.start
  refine h.update (start.nesting.trans ext.nesting) (by rw [start.scopes, ext.outer]) ?_ ?_ ?_
  · rw [start.scopes]
    exact opened.opening.scopes_ne_nil h.scopes_ne_nil
  · rw [start.blocks]
    exact opened.opening.within
  · intro x b v hp
    rw [start.home] at hp
    exact .inl (opened.opening.pending_before hp)

private theorem leave {block : Nat} (h : Grounded N ⟨s, fs⟩) (left : s.leave? block = some t)
    (inside : t.nesting ≠ []) : Grounded N ⟨t, fs⟩ := by
  have left := State.left_of_leave? left
  refine h.of_scopes left.scopes (.of_eq left.blocks) inside fun b hb => ?_
  rw [left.blocks]
  exact h.opened b (by rw [show s.nesting = _ from left.nesting]; exact List.mem_cons_of_mem _ hb)

private theorem popClass (h : Grounded N ⟨s, fs⟩) : Grounded N ⟨s.popClass, fs⟩ :=
  h.of_scopes rfl (.refl _) h.inside h.opened

private theorem popFunction (h : Grounded N ⟨s, f :: fs⟩) : Grounded N ⟨s.popFunction, fs⟩ := by
  refine ⟨h.inside, h.opened, ?_⟩
  have hscopes : List.Forall₂ (Scope.Grounded N s.blocks) (some f :: (fs.map some ++ [none]))
      s.scopes := h.scopes
  show List.Forall₂ (Scope.Grounded N s.blocks) (fs.map some ++ [none]) s.scopes.tail
  cases hs : s.scopes with
  | nil =>
    rw [hs] at hscopes
    cases hscopes
  | cons sc rest =>
    rw [hs, List.forall₂_cons] at hscopes
    exact hscopes.2

private theorem branch {block : Nat} (h : Grounded N ⟨s, fs⟩) (left : s.leave? block = some t) :
    Grounded N ⟨t.enter, fs⟩ := by
  have left := State.left_of_leave? left
  have hblocks : t.enter.blocks = s.blocks.extend := congrArg Blocks.extend left.blocks
  refine h.of_scopes left.scopes (by rw [hblocks]; exact .extend _) (List.cons_ne_nil _ _) fun b hb => ?_
  rw [hblocks, Blocks.length_extend]
  rcases List.mem_cons.mp hb with rfl | hb
  · rw [left.blocks]
    omega
  · have := h.opened b (by rw [show s.nesting = _ from left.nesting]; exact List.mem_cons_of_mem _ hb)
    simp only at this
    omega

end Stop.Grounded

private theorem Binds.home_zip {entry : Nat} {s t : State} {names : List String} {values : List ValueId}
    (h : Binds entry s names values t) (x : String) :
    if x ∈ names then ∃ v, t.home x = .pending entry v ∧ (x, v) ∈ names.zip values
    else t.home x = s.home x := by
  induction h with
  | nil => simp
  | @cons s t u name value names values _ _ _ home _ ih =>
    by_cases hx : x ∈ names
    · rw [if_pos hx] at ih
      obtain ⟨v, hv, hmem⟩ := ih
      rw [if_pos (List.mem_cons_of_mem _ hx)]
      exact ⟨v, hv, List.mem_cons_of_mem _ hmem⟩
    · rw [if_neg hx, home x] at ih
      by_cases hn : x = name
      · subst hn
        rw [if_pos List.mem_cons_self]
        exact ⟨value, by rw [ih, if_pos rfl], List.mem_cons_self⟩
      · rw [if_neg (by simp [hn, hx]), ih, if_neg hn]

private theorem Lower.scopes_ne_nil_of_bindParams {entry : Nat} {params : List Param} {s t : State}
    {formals : List (ValueId × Ty)} (run : Runs (bindParams entry params) s formals t)
    (h : s.scopes ≠ []) : t.scopes ≠ [] := by
  induction params generalizing s formals with
  | nil =>
    simp only [bindParams, runs_pure] at run
    obtain ⟨-, rfl⟩ := run
    exact h
  | cons p rest ih =>
    simp only [bindParams, runs_bind, runs_step, runs_pure] at run
    obtain ⟨value, s₁, hbind, more, s₂, hmore, -, rfl⟩ := run
    apply ih hmore
    rw [← show (s.bind p.name (annotatedTy? p.annot) entry).2 = s₁ from congrArg Prod.snd hbind]
    exact List.cons_ne_nil _ _

namespace Stop

variable {N : String → Prop} {p q : Stop}

private theorem Grounded.call {s t : State} {fs : List OpenFunction} {name : String} {ty : Ty}
    {params : Params} {formals : List (ValueId × Ty)} (h : Grounded N ⟨s, fs⟩)
    (bind : Runs (Lower.bindParams s.blocks.length params.plain)
      (s.declare name ty).pushFunction.enter formals t) (names : ∀ x ∈ params.names, N x) :
    Grounded N ⟨t, ⟨s.blocks.length, params.names.zip (formals.map Prod.fst)⟩ :: fs⟩ := by
  have binds := Lower.binds_of_bindParams bind
  obtain ⟨-, hblocks, hscopes, -, hnesting⟩ := binds.entry
  have hlen : t.blocks.length = s.blocks.length + 1 := by rw [hblocks, Blocks.length_extend]
  have hne : t.scopes ≠ [] := Lower.scopes_ne_nil_of_bindParams bind (List.cons_ne_nil _ _)
  obtain ⟨top, rest, htop⟩ := List.exists_cons_of_ne_nil hne
  refine ⟨by rw [hnesting]; exact List.cons_ne_nil _ _, ?_, ?_⟩
  · intro b hb
    rw [hnesting] at hb
    show b < t.blocks.length
    rw [hlen]
    rcases List.mem_cons.mp hb with rfl | hb
    · omega
    · have := h.opened b hb
      simp only at this
      omega
  · have hwithin : s.blocks.Within t.blocks := by
      rw [hblocks]
      exact .extend _
    rw [htop, List.tail_cons] at hscopes
    show List.Forall₂ _ (some _ :: (fs.map some ++ [none])) t.scopes
    rw [htop, hscopes, List.forall₂_cons]
    refine ⟨fun x b v hp => ?_, Grounded.mono h.scopes hwithin⟩
    have hp : t.home x = .pending b v := by rw [State.home, State.scope, htop]; exact hp
    have hhome := binds.home_zip x
    split at hhome
    · rename_i hx
      obtain ⟨w, hw, hmem⟩ := hhome
      rw [hp] at hw
      cases hw
      exact ⟨names x hx, by show s.blocks.length < t.blocks.length; omega, .inr ⟨_, rfl, rfl, hmem⟩⟩
    · rw [hp] at hhome
      cases hhome

/-- Each step keeps the values of all open scopes where they are. -/
theorem Next.grounded (next : Next N p q) (h : p.Grounded N) : q.Grounded N := by
  cases next with
  | simple one names => exact h.simple one names
  | enter opens => exact (h.opens opens).enter
  | branch left => exact h.branch left
  | leave left inside closed =>
    have hleft := h.leave left inside
    rcases closed with rfl | rfl
    · exact hleft.emit _
    · exact hleft.popClass.emit _
  | call bind names => exact h.call bind names
  | ret left inside => exact (h.leave left inside).popFunction.emit _

end Stop

/-- A variable goes from undefined to pending to memory, and keeps its value while it is pending. -/
def Home.Advances : Home → Home → Prop
  | .undefined, _ => True
  | .pending b v, h => h = .pending b v ∨ h = .memory
  | .memory, h => h = .memory

theorem Home.Advances.refl (h : Home) : h.Advances h := by
  cases h <;> simp [Advances]

theorem Home.Advances.trans {h k l : Home} (hk : h.Advances k) (kl : k.Advances l) : h.Advances l := by
  cases h with
  | undefined => trivial
  | pending b v =>
    rcases hk with rfl | rfl
    · exact kl
    · exact .inr kl
  | memory =>
    cases hk
    exact kl

private theorem Extends.advances {own : Option Nat} {s t : State} (h : Extends own s t) (x : String) :
    (s.home x).Advances (t.home x) := by
  cases hs : s.home x with
  | undefined => trivial
  | pending b v => exact h.pending x b v hs
  | memory => exact h.memory x hs

/-- Where a variable lives in the scope at a depth, the scope of the module being at depth 0. -/
def State.homeAt (s : State) (depth : Nat) (x : String) : Home :=
  (s.scopes.reverse[depth]?.getD {}).home x

/-- In a scope that is open at both points, every variable moves forward. -/
def Stop.Precedes (p q : Stop) : Prop :=
  ∀ depth, depth < p.state.scopes.length → depth < q.state.scopes.length →
    ∀ x, (p.state.homeAt depth x).Advances (q.state.homeAt depth x)

private theorem State.homeAt_top {s : State} {sc : Scope} {rest : List Scope} (h : s.scopes = sc :: rest)
    (depth : Nat) (x : String) : s.homeAt depth x =
      if depth = rest.length then sc.home x else (rest.reverse[depth]?.getD {}).home x := by
  rw [homeAt, h, List.reverse_cons, List.getElem?_append, List.length_reverse]
  split
  · rw [if_neg (by omega)]
  · split
    · rename_i hd
      simp [hd]
    · rename_i hlt hne
      rw [List.getElem?_eq_none (by simp; omega), List.getElem?_eq_none (by simp; omega)]

namespace Stop.Precedes

variable {s t : State} {fs gs : List OpenFunction}

private theorem of_top (outer : t.scopes.tail = s.scopes.tail) (hs : s.scopes ≠ []) (ht : t.scopes ≠ [])
    (advances : ∀ x, (s.home x).Advances (t.home x)) : Precedes ⟨s, fs⟩ ⟨t, gs⟩ := by
  intro depth _ _ x
  obtain ⟨sc, rest, hsc⟩ := List.exists_cons_of_ne_nil hs
  obtain ⟨sc', rest', hsc'⟩ := List.exists_cons_of_ne_nil ht
  rw [hsc, hsc', List.tail_cons, List.tail_cons] at outer
  subst outer
  show (s.homeAt depth x).Advances (t.homeAt depth x)
  rw [State.homeAt_top hsc, State.homeAt_top hsc']
  split
  · have hadv := advances x
    simpa [State.home, State.scope, hsc, hsc'] using hadv
  · exact .refl _

private theorem of_scopes (h : t.scopes = s.scopes) : Precedes ⟨s, fs⟩ ⟨t, gs⟩ := by
  intro depth _ _ x
  show (s.homeAt depth x).Advances (t.homeAt depth x)
  rw [State.homeAt, State.homeAt, h]
  exact .refl _

private theorem of_push {sc : Scope} (h : t.scopes = sc :: s.scopes) : Precedes ⟨s, fs⟩ ⟨t, gs⟩ := by
  intro depth hlt _ x
  show (s.homeAt depth x).Advances (t.homeAt depth x)
  have hlt : depth < s.scopes.length := hlt
  rw [State.homeAt_top h, if_neg (by omega)]
  exact .refl _

private theorem of_pop (h : t.scopes = s.scopes.tail) : Precedes ⟨s, fs⟩ ⟨t, gs⟩ := by
  intro depth _ hlt x
  show (s.homeAt depth x).Advances (t.homeAt depth x)
  have hlt : depth < t.scopes.length := hlt
  cases hs : s.scopes with
  | nil => simp [h, hs] at hlt
  | cons sc rest =>
    rw [hs, List.tail_cons] at h
    rw [State.homeAt_top hs, if_neg (by rw [← h]; omega), State.homeAt, h]
    exact .refl _

end Stop.Precedes

namespace Stop

variable {N : String → Prop} {p q : Stop}

private theorem Next.precedes (next : Next N p q) (h : p.Grounded N) : p.Precedes q := by
  cases next with
  | simple one names =>
    have ext := one.extension
    exact .of_top ext.outer h.scopes_ne_nil (one.scopes_ne_nil h.scopes_ne_nil) ext.advances
  | @enter _ t _ _ _ _ _ _ opens =>
    obtain ⟨pre, hs, regions, m, opened⟩ := opens.opened
    have ext := opened.opening.extension
    have hscopes : t.enter.scopes = m.scopes := opened.start.scopes
    refine .of_top (by rw [hscopes]; exact ext.outer) h.scopes_ne_nil ?_ fun x => ?_
    · rw [hscopes]
      exact opened.opening.scopes_ne_nil h.scopes_ne_nil
    · rw [State.home_congr m x hscopes]
      exact ext.advances x
  | branch left => exact .of_scopes (State.left_of_leave? left).scopes
  | leave left _ closed =>
    have left := State.left_of_leave? left
    rcases closed with rfl | rfl <;> exact .of_scopes left.scopes
  | call bind names =>
    obtain ⟨top, rest, htop⟩ := List.exists_cons_of_ne_nil
      (Lower.scopes_ne_nil_of_bindParams bind (List.cons_ne_nil _ _))
    obtain ⟨-, -, hscopes, -, -⟩ := (Lower.binds_of_bindParams bind).entry
    rw [htop, List.tail_cons] at hscopes
    exact .of_push (by rw [htop, hscopes])
  | ret left _ =>
    exact .of_pop (congrArg List.tail (State.left_of_leave? left).scopes)

private theorem initial_grounded : Grounded N ⟨State.initial, []⟩ := by
  refine ⟨List.cons_ne_nil _ _, ?_, ?_⟩
  · intro b hb
    rw [List.mem_singleton.mp hb]
    exact Nat.zero_lt_one
  · refine .cons ?_ .nil
    intro x b v hp
    cases hp

/-- As long as a scope is open, its variables move forward. -/
theorem advances_of_chain {depth : Nat} {x : String} {mid : List Stop}
    (chain : (p :: (mid ++ [q])).IsChain Precedes)
    (opened : ∀ r ∈ p :: (mid ++ [q]), depth < r.state.scopes.length) :
    (p.state.homeAt depth x).Advances (q.state.homeAt depth x) := by
  induction mid generalizing p with
  | nil =>
    rw [List.nil_append, List.isChain_cons_cons] at chain
    exact chain.1 depth (opened p (by simp)) (opened q (by simp)) x
  | cons r mid ih =>
    rw [List.cons_append, List.isChain_cons_cons] at chain
    have hfirst := chain.1 depth (opened p (by simp)) (opened r (by simp)) x
    exact hfirst.trans (ih chain.2 fun r' hr' => opened r' (List.mem_cons_of_mem _ hr'))

end Stop

namespace Stmt

variable {N : String → Prop} {stmts : List Stmt}

private theorem trace_grounded (names : ∀ x ∈ Act.namesAll (actsAll false stmts), N x) :
    ∀ p ∈ trace stmts, p.Grounded N :=
  trace_induction names Stop.initial_grounded fun _ _ next h => next.grounded h

private theorem trace_precedes : (trace stmts).IsChain Stop.Precedes := by
  have names : ∀ x ∈ Act.namesAll (actsAll false stmts), True := fun _ _ => trivial
  have grounded := trace_grounded names
  have chain : (trace stmts).IsChain (Stop.Next fun _ => True) := (trace_leads names).chain
  generalize trace stmts = ps at chain grounded
  induction chain with
  | nil => exact .nil
  | singleton p => exact .singleton p
  | cons_cons next _ ih =>
    exact .cons_cons (next.precedes (grounded _ List.mem_cons_self))
      (ih fun p hp => grounded p (List.mem_cons_of_mem _ hp))

end Stmt

private theorem Stop.Grounded.scope {N : String → Prop} {p : Stop} (h : p.Grounded N) {i : Nat}
    {sc : Scope}
    (hsc : p.state.scopes[i]? = some sc) : sc.Grounded N p.state.blocks p.functions[i]? := by
  obtain ⟨hlt, hget⟩ := List.getElem?_eq_some_iff.mp hsc
  have hlen := h.scopes.length_eq
  have hscope := h.scopes.get (by omega) hlt
  rw [List.get_eq_getElem, List.get_eq_getElem, hget] at hscope
  have hfunction : p.functions[i]? = (p.functions.map some ++ [none])[i] := by
    simp only [List.length_append, List.length_map, List.length_singleton] at hlen
    rw [List.getElem_append]
    split
    · simp
    · rw [List.getElem?_eq_none (by simp_all)]
      simp
  rw [hfunction]
  exact hscope

/-- The variables of a module, from its start to its end or to where it is refused. In every scope that
is open between two statements no variable is both a value and in memory, the block noted for a value is
there and has it, and with plain names different variables have different values. As long as a scope is
open, each of its variables goes from undefined to a value to memory, or straight to memory. -/
theorem variables_move_forward (stmts : List Stmt) :
    ((Stmt.trace stmts).head? = some ⟨State.initial, []⟩ ∧
      ∀ u t, Runs (Lower.body stmts) State.initial u t → (Stmt.trace stmts).getLast? = some ⟨t, []⟩) ∧
    (∀ p ∈ Stmt.trace stmts, ∀ (i : Nat) (sc : Scope), p.state.scopes[i]? = some sc →
      (∀ x ∈ sc.memory, sc.pending.find? x = none) ∧
      ∀ x b v, sc.pending.find? x = some (b, v) → p.state.blocks.Sources p.functions[i]? x b v) ∧
    ((∀ x ∈ Act.namesAll (Stmt.actsAll false stmts), PlainName x) →
      ∀ p ∈ Stmt.trace stmts, ∀ sc ∈ p.state.scopes, ∀ sc' ∈ p.state.scopes, ∀ x y b c v w,
        sc.pending.find? x = some (b, v) → sc'.pending.find? y = some (c, w) → x ≠ y → v ≠ w) ∧
    ∀ depth p mid q, p :: (mid ++ [q]) <:+: Stmt.trace stmts →
      (∀ r ∈ p :: (mid ++ [q]), depth < r.state.scopes.length) →
        ∀ x, (p.state.homeAt depth x).Advances (q.state.homeAt depth x) := by
  have leads : Stmt.LeadsAll (fun _ => True) [] State.initial stmts :=
    Stmt.trace_leads fun _ _ => trivial
  refine ⟨⟨leads.head, leads.last⟩, ?_, ?_, ?_⟩
  · intro p hp i sc hsc
    have tidy : sc.Tidy p.state.counter :=
      (Stmt.trace_reached p hp).tidy sc (List.mem_of_getElem? hsc)
    refine ⟨tidy.disjoint, fun x b v hv => ?_⟩
    have grounded := Stmt.trace_grounded (N := fun _ => True) (fun _ _ => trivial) p hp
    exact (grounded.scope hsc x b v ((tidy.find?_iff x b v).mp hv)).2
  · intro plain p hp sc hsc sc' hsc' x y b c v w hv hw hne
    have tidy := (Stmt.trace_reached p hp).tidy
    have hnames : ∀ sc ∈ p.state.scopes, ∀ x b v, sc.pending.find? x = some (b, v) → PlainName x := by
      intro sc hsc x b v hv
      obtain ⟨i, hi⟩ := List.mem_iff_getElem?.mp hsc
      exact ((Stmt.trace_grounded plain p hp).scope hi x b v (((tidy sc hsc).find?_iff x b v).mp hv)).1
    exact ((tidy sc hsc).ids x b v hv).ne ((tidy sc' hsc').ids y c w hw) (hnames sc hsc x b v hv)
      (hnames sc' hsc' y c w hw) hne
  · intro depth p mid q hinfix hopen x
    have chain := Stmt.trace_precedes.infix hinfix
    exact Stop.advances_of_chain chain hopen

/-- A function with a variable that moves to memory inside a loop, and a variable of the module with the
same name as its parameter. -/
def runningTotalProgram : List Stmt :=
  [.assign "items" (.ofInt 0),
    .function "sum" [⟨"items", none⟩] none
      [.assign "total" (.ofInt 0),
        .forIn "item" (.ofName "items")
          [.assign "total" (.binOp (.ofName "total") .add (.ofName "item"))],
        .ret (some (.ofName "total"))]]

/-- In the scope of the function the sum is undefined, then a value, then in memory from the loop on,
and at every point different variables have different values. -/
theorem runningTotalProgram_moves_forward :
    (Stmt.trace runningTotalProgram).map (fun p => p.state.homeAt 1 "total") =
      [.undefined, .undefined, .undefined, .pending 1 ⟨"%total"⟩, .pending 1 ⟨"%total"⟩,
        .memory, .memory, .memory, .undefined] ∧
    ∀ p ∈ Stmt.trace runningTotalProgram, ∀ sc ∈ p.state.scopes, ∀ sc' ∈ p.state.scopes,
      ∀ x y b c v w, sc.pending.find? x = some (b, v) → sc'.pending.find? y = some (c, w) →
        x ≠ y → v ≠ w := by
  refine ⟨by decide +kernel, (variables_move_forward runningTotalProgram).2.2.1 ?_⟩
  have hnames : Act.namesAll (Stmt.actsAll false runningTotalProgram) =
      ["items", "items", "total", "items", "item", "total", "item", "total", "total"] := rfl
  rw [hnames]
  simp [PlainName]

end RegionIR
