import RegionIR.Proofs.Reordering
import RegionIR.Proofs.Spelling
/-!
# Trees are recovered from their spellings

Whatever spelling of a tree is decoded, the tree comes out. A shape recovers a value if it reads every
spelling of it as that value; fields, lists, options and nodes recover what they are made of.
-/
namespace RegionIR

namespace Schema

open Json (Value UniqueKeys)
open Spelling

/-- Every spelling in which no object has a key twice is read as the value spelled. -/
def Recovers (s : Shape) (spelled : Value → Prop) (a : s.Carrier) : Prop :=
  ∀ layer v, v.DistinctKeys → spelled v → (decode layer s v).toOption = some a

private theorem recovers_text (s : String) : Recovers .text (Text s) s := by
  rintro layer _ _ rfl
  rfl

private theorem readNat_of_lt {bound n : Nat} (h : n < bound) (expected : Expected) :
    readNat expected bound (.number (.int n)) = .ok n := by
  simp [readNat, h]

private theorem recovers_byte (n : UInt8) : Recovers .byte (Byte n) n := by
  rintro layer _ _ rfl
  change (readNat .byte 256 (.number (.int n.toNat)) >>= fun k => pure (UInt8.ofNat k)).toOption = some n
  rw [readNat_of_lt n.toNat_lt]
  simp

private theorem recovers_position (n : Nat) : Recovers .position (Position n) n := by
  rintro layer _ _ ⟨hn, rfl⟩
  exact congrArg Except.toOption (readNat_of_lt (hn : n < twoTo 64) .position)

private theorem recovers_literal (l : Literal) : Recovers .literal l.Spelled l := by
  intro layer v _ h
  have hbound : ((twoTo 63 : Nat) : Int) = 2 ^ 63 := by norm_num [twoTo]
  cases l with
  | none => cases h; rfl
  | bool b => cases h; rfl
  | int n =>
    obtain ⟨⟨_, hn⟩, rfl⟩ := h
    change some (integerLiteral n) = some (Literal.int n)
    rw [integerLiteral, hbound, if_pos hn]
  | bigInt digits =>
    obtain ⟨n, ⟨hn, _⟩, rfl, rfl⟩ := h
    change some (integerLiteral n) = some (Literal.bigInt (toString n))
    rw [integerLiteral, hbound, if_neg (by omega)]
  | float x => cases h; rfl
  | text s => cases h; rfl

section Compound

variable {α : Type} {s : Shape}

private theorem recovers_list (s : Shape) {spelled : s.Carrier → Value → Prop} {xs : List s.Carrier}
    (h : ∀ x ∈ xs, Recovers s (spelled x) x) : Recovers (.list s) (Listed spelled xs) xs := by
  rintro layer _ hv ⟨items, rfl, hall⟩
  cases hv with
  | array each =>
    have hitems : (decodeItems layer s items).toOption = some xs := by
      induction hall with
      | nil => rfl
      | @cons x v xs items hxv _ ih =>
        have hx := h x (by simp) layer v (each v (by simp)) hxv
        have hxs := ih (fun y hy => h y (by simp [hy])) fun w hw => each w (by simp [hw])
        rw [decodeItems]
        simp [hx, hxs]
    change (decodeItems layer s items >>= fun as => pure (id as)).toOption = some xs
    simp [hitems]

private theorem MappingForm.read?_map {β : Type} (form : MappingForm α) (f : α → β) (layer : Layer)
    (ms : List (String × Value)) : (form.map f).read? layer ms = (form.read? layer ms).map f := by
  cases form with
  | refused expected => rfl
  | record fields build => simp [MappingForm.map, MappingForm.read?, Function.comp_def]
  | choice γ variants shared build =>
    simp [MappingForm.map, MappingForm.read?, Option.map_bind, Function.comp_def]

/-- Neither null nor an array; such a value is read as an option as it is read by itself. -/
private def Solid (v : Value) : Prop := v ≠ .null ∧ ∀ items, v ≠ .array items

private theorem decode_optional {layer : Layer} {v : Value} (hv : v.DistinctKeys) (hsolid : Solid v) :
    (decode layer (.optional s) v).toOption = (decode layer s v).toOption.map some := by
  have hscalar : ∀ w : Value, (readScalar s w >>= fun a => pure (some a)).toOption =
      (readScalar s w).toOption.map some := fun w => by simp
  cases hv with
  | null => exact absurd rfl hsolid.1
  | array each => exact absurd rfl (hsolid.2 _)
  | bool b => exact hscalar _
  | number n => exact hscalar _
  | string t => exact hscalar _
  | @object ms keys each =>
    rw [decode_object layer s keys, decode_object layer (.optional s) keys]
    exact MappingForm.read?_map s.mappingForm some layer ms

private theorem recovers_optional (s : Shape) {spelled : s.Carrier → Value → Prop} {x : Option s.Carrier}
    (hsolid : ∀ a v, spelled a v → Solid v) (h : ∀ a ∈ x, Recovers s (spelled a) a) :
    Recovers (.optional s) (Optional spelled x) x := by
  rintro layer v hv (⟨rfl, rfl⟩ | ⟨a, rfl, ha⟩)
  · rfl
  · rw [decode_optional hv (hsolid a v ha), h a rfl layer v hv ha]
    rfl

end Compound

section Fields

variable {f : Field} {fs : List Field} {ms : List (String × Value)} {spelled : Value → Prop}
  {a : f.shape.Carrier} {r : Record fs} {layer : Layer}

private theorem read?_of_given (hms : (Value.object ms).DistinctKeys) (hr : Recovers f.shape spelled a)
    (h : Given ms f.name spelled) : f.read? layer ms = some a := by
  obtain ⟨v, hlookup, hspelled⟩ := h
  cases hms with
  | object keys each =>
    have hv : v.DistinctKeys := each (f.name, v) (keys.lookup_eq_some_iff.1 hlookup)
    rw [Field.read?_of_lookup hlookup, hr layer v hv hspelled]

/-- A field that may be left out is recovered, given or not. -/
theorem read?_of_elidable (hms : (Value.object ms).DistinctKeys) (hr : Recovers f.shape spelled a)
    {default : Prop} (hdefault : default → f.fallback = some a)
    (h : Elidable ms f.name default spelled) : f.read? layer ms = some a := by
  rcases h with ⟨hd, hlookup⟩ | hgiven
  · rw [Field.read?_of_lookup_eq_none hlookup, hdefault hd]
  · exact read?_of_given hms hr hgiven

private theorem read?_nil : Record.read? layer [] ms = some () := rfl

private theorem read?_cons (ha : f.read? layer ms = some a) (hr : Record.read? layer fs ms = some r) :
    Record.read? layer (f :: fs) ms = some ((a, r) : Record (f :: fs)) := by
  rw [Record.read?, ha, hr]
  rfl

private theorem cons_given (hms : (Value.object ms).DistinctKeys) (hr : Recovers f.shape spelled a)
    (h : Given ms f.name spelled) (hrest : Record.read? layer fs ms = some r) :
    Record.read? layer (f :: fs) ms = some ((a, r) : Record (f :: fs)) :=
  read?_cons (read?_of_given hms hr h) hrest

private theorem cons_elidable (hms : (Value.object ms).DistinctKeys) (hr : Recovers f.shape spelled a)
    {default : Prop} (hdefault : default → f.fallback = some a) (h : Elidable ms f.name default spelled)
    (hrest : Record.read? layer fs ms = some r) :
    Record.read? layer (f :: fs) ms = some ((a, r) : Record (f :: fs)) :=
  read?_cons (read?_of_elidable hms hr hdefault h) hrest

end Fields

section OptionalFields

variable {ms : List (String × Value)} {key : String} (s : Shape) {spelled : s.Carrier → Value → Prop}
  {fs : List Field} {r : Record fs} {layer : Layer}

private theorem cons_list (hms : (Value.object ms).DistinctKeys) {xs : List s.Carrier}
    (hr : ∀ x ∈ xs, Recovers s (spelled x) x) (h : ListField ms key spelled xs)
    (hrest : Record.read? layer fs ms = some r) :
    Record.read? layer (.list key s :: fs) ms = some ((xs, r) : Record (.list key s :: fs)) := by
  have hdefault : xs = [] → (Field.list key s).fallback = some xs := fun hnil => by rw [hnil]; rfl
  exact cons_elidable hms (recovers_list s hr) hdefault h hrest

private theorem cons_option (hms : (Value.object ms).DistinctKeys) {x : Option s.Carrier}
    (hsolid : ∀ a v, spelled a v → Solid v) (hr : ∀ a ∈ x, Recovers s (spelled a) a)
    (h : OptionField ms key spelled x) (hrest : Record.read? layer fs ms = some r) :
    Record.read? layer (.optional key s :: fs) ms = some ((x, r) : Record (.optional key s :: fs)) := by
  have hdefault : x = none → (Field.optional key s).fallback = some x := fun hnone => by rw [hnone]; rfl
  exact cons_elidable hms (recovers_optional s hsolid hr) hdefault h hrest

end OptionalFields

section Nodes

variable {ms : List (String × Value)} {s : Shape} {β : Type} {variants : List (Variant β)}
  {shared : List Field} {build : β → Record shared → s.Carrier}

private theorem decode_node (hform : s.mappingForm = .choice β variants shared build)
    (hkeys : UniqueKeys ms)
    {kind : String} (htag : ms.lookup "_t" = some (.string kind)) {v : Variant β}
    (hv : variantOf variants (.string kind) = .ok v) {own : Record v.fields}
    (hown : Record.read? .inner v.fields ms = some own) {common : Record shared}
    (hcommon : Record.read? .inner shared ms = some common) (layer : Layer) :
    (decode layer s (.object ms)).toOption = some (build (v.build own) common) := by
  rw [decode_object layer s hkeys, hform, MappingForm.read?, tagKey, htag]
  simp [hv, hown, hcommon]

private theorem recovers_record {fields : List Field} {make : Record fields → s.Carrier}
    (hform : s.mappingForm = .record fields make) {spelled : List (String × Value) → Prop} {a : s.Carrier}
    (h : ∀ layer ms, (Value.object ms).DistinctKeys → spelled ms →
      ∃ own, Record.read? layer fields ms = some own ∧ make own = a) :
    Recovers s (fun v => ∃ ms, v = .object ms ∧ spelled ms) a := by
  rintro layer _ hms ⟨ms, rfl, hspelled⟩
  obtain ⟨own, hown, rfl⟩ := h layer ms hms hspelled
  cases hms with
  | object keys each =>
    rw [decode_object layer s keys, hform, MappingForm.read?, hown]
    rfl

end Nodes

section Positions

variable {ms : List (String × Value)} {key : String} {n : Nat}

private theorem solid_position {n : Nat} {v : Value} (h : Position n v) : Solid v := by
  obtain ⟨_, rfl⟩ := h
  exact ⟨by simp, by simp⟩

private theorem read?_of_absent (h : Absent ms key) (layer : Layer) :
    (Field.optional key .position).read? layer ms = some none := by
  rcases h with h | h
  · exact Field.read?_of_lookup_eq_none h
  · rw [Field.read?_of_lookup (h : ms.lookup (Field.optional key .position).name = some .null)]
    rfl

private theorem read?_of_position (hms : (Value.object ms).DistinctKeys) (h : Given ms key (Position n))
    (layer : Layer) : (Field.optional key .position).read? layer ms = some (some n) := by
  have hr : Recovers (.optional .position) (Optional Position (some n)) (some n) :=
    recovers_optional .position (fun _ _ => solid_position) fun a _ => recovers_position a
  obtain ⟨v, hlookup, hv⟩ := h
  exact read?_of_given hms hr ⟨v, hlookup, .inr ⟨n, rfl, hv⟩⟩

private theorem read?_of_offset (hms : (Value.object ms).DistinctKeys) {default : Nat}
    (h : Offset ms key default n) (layer : Layer) :
    ∃ x : Option Nat, (Field.optional key .position).read? layer ms = some x ∧ x.getD default = n := by
  rcases h with h | ⟨rfl, h⟩
  · exact ⟨some n, read?_of_position hms h layer, rfl⟩
  · exact ⟨none, read?_of_absent h layer, rfl⟩

private theorem read?_positions (hms : (Value.object ms).DistinctKeys) {span : Option Span}
    (h : Placed span ms) :
    ∃ common, Record.read? .inner positionFields ms = some common ∧ spanOf common = span := by
  cases span with
  | none =>
    obtain ⟨hline, hothers⟩ := h
    have hother : ∀ key ∈ ["col_offset", "end_lineno", "end_col_offset"],
        ∃ x : Option Nat, (Field.optional key .position).read? .inner ms = some x := by
      intro key hkey
      rcases hothers key hkey with habsent | ⟨n, hgiven⟩
      · exact ⟨none, read?_of_absent habsent .inner⟩
      · exact ⟨some n, read?_of_position hms hgiven .inner⟩
    obtain ⟨column, hcolumn⟩ := hother "col_offset" (by simp)
    obtain ⟨endLine, hendLine⟩ := hother "end_lineno" (by simp)
    obtain ⟨endColumn, hendColumn⟩ := hother "end_col_offset" (by simp)
    exact ⟨_, read?_cons (read?_of_absent hline .inner) (read?_cons hcolumn (read?_cons hendLine
      (read?_cons hendColumn read?_nil))), rfl⟩
  | some span =>
    obtain ⟨hline, hcolumn, hendLine, hendColumn⟩ := h
    obtain ⟨column, hcolumn, hc⟩ := read?_of_offset hms hcolumn .inner
    obtain ⟨endLine, hendLine, hel⟩ := read?_of_offset hms hendLine .inner
    obtain ⟨endColumn, hendColumn, hec⟩ := read?_of_offset hms hendColumn .inner
    refine ⟨_, read?_cons (read?_of_position hms hline .inner) (read?_cons hcolumn (read?_cons hendLine
      (read?_cons hendColumn read?_nil))), ?_⟩
    change some (⟨⟨span.start.line, column.getD 0⟩,
      ⟨endLine.getD span.start.line, endColumn.getD (column.getD 0)⟩⟩ : Span) = some span
    rw [hc, hel, hec]

end Positions

private theorem solid_of_node {kind : String} {fields : List (String × Value) → Prop} {v : Value}
    (h : Node kind fields v) : Solid v := by
  obtain ⟨ms, rfl, _⟩ := h
  exact ⟨by simp, by simp⟩

section Symbols

private theorem recovers_symbol {s : Shape} {variants : List (Variant s.Carrier)}
    (hform : s.mappingForm = .choice s.Carrier variants [] fun op _ => op) {tag : String} {op : s.Carrier}
    (h : variantOf variants (.string tag) = .ok (.plain tag op)) : Recovers s (Symbol tag) op := by
  rintro layer _ hv ⟨ms, rfl, htag, _⟩
  cases hv with
  | object keys each => exact decode_node hform keys htag h read?_nil read?_nil layer

private theorem recovers_boolOperator (op : BoolOperator) : Recovers .boolOperator (Symbol op.tag) op :=
  recovers_symbol rfl (by cases op <;> rfl)

private theorem recovers_binaryOperator (op : BinaryOperator) :
    Recovers .binaryOperator (Symbol op.tag) op :=
  recovers_symbol rfl (by cases op <;> rfl)

private theorem recovers_cmpOperator (op : CmpOperator) : Recovers .cmpOperator (Symbol op.tag) op :=
  recovers_symbol rfl (by cases op <;> rfl)

private theorem recovers_unaryOperator (op : UnaryOperator) :
    Recovers .unaryOperator (Symbol op.tag) op :=
  recovers_symbol rfl (by cases op <;> rfl)

end Symbols

/-- A node with a place is recovered if the fields of its kind are. -/
theorem recovers_node {s : Shape} {β : Type} {variants : List (Variant β)}
    {make : β → Option Span → s.Carrier}
    (hform : s.mappingForm = .choice β variants positionFields fun form r => make form (spanOf r))
    {kind : String} {form : β} {span : Option Span} {fields : List (String × Value) → Prop}
    {variant : Variant β} (hv : variantOf variants (.string kind) = .ok variant)
    (h : ∀ ms, (Value.object ms).DistinctKeys → fields ms →
      ∃ own, Record.read? .inner variant.fields ms = some own ∧ variant.build own = form) :
    Recovers s (Node kind fun ms => Placed span ms ∧ fields ms) (make form span) := by
  rintro layer _ hms ⟨ms, rfl, htag, hplaced, hfields⟩
  obtain ⟨own, hown, rfl⟩ := h ms hms hfields
  obtain ⟨common, hcommon, rfl⟩ := read?_positions hms hplaced
  cases hms with
  | object keys each => exact decode_node hform keys htag hv hown hcommon layer

private theorem mappingForm_expr : Shape.expr.mappingForm =
    .choice ExprForm exprVariants positionFields fun form r => Expr.mk form (spanOf r) := rfl

private theorem mappingForm_stmt : Shape.stmt.mappingForm =
    .choice StmtForm stmtVariants positionFields fun form r => Stmt.mk form (spanOf r) := rfl

private theorem solid_expr (e : Expr) (v : Value) (h : e.Spelled v) : Solid v := by
  obtain ⟨form, span⟩ := e
  rw [Expr.Spelled] at h
  exact solid_of_node h

private theorem solid_text (s : String) (v : Value) (h : Text s v) : Solid v := by
  rw [h]
  exact ⟨by simp, by simp⟩

mutual

theorem recovers_expr : (e : Expr) → Recovers .expr e.Spelled e
  | .mk (.boolOp op values) span => by
    simp only [Expr.Spelled, Expr.spelledAll_eq]
    refine recovers_node mappingForm_expr rfl fun ms hms ⟨hop, hvalues⟩ => ?_
    exact ⟨_, cons_given hms (recovers_boolOperator op) hop <|
      cons_given hms (recovers_list .expr (recovers_exprs values)) hvalues read?_nil, rfl⟩
  | .mk (.binOp left op right) span => by
    simp only [Expr.Spelled]
    refine recovers_node mappingForm_expr rfl fun ms hms ⟨hleft, hop, hright⟩ => ?_
    exact ⟨_, cons_given hms (recovers_expr left) hleft <|
      cons_given hms (recovers_binaryOperator op) hop <|
      cons_given hms (recovers_expr right) hright read?_nil, rfl⟩
  | .mk (.unaryOp op operand) span => by
    simp only [Expr.Spelled]
    refine recovers_node mappingForm_expr rfl fun ms hms ⟨hop, hoperand⟩ => ?_
    exact ⟨_, cons_given hms (recovers_unaryOperator op) hop <|
      cons_given hms (recovers_expr operand) hoperand read?_nil, rfl⟩
  | .mk (.compare left ops comparators) span => by
    simp only [Expr.Spelled, Expr.spelledAll_eq]
    refine recovers_node mappingForm_expr rfl fun ms hms ⟨hleft, hops, hcomparators⟩ => ?_
    exact ⟨_, cons_given hms (recovers_expr left) hleft <|
      cons_given hms (recovers_list .cmpOperator fun op _ => recovers_cmpOperator op) hops <|
      cons_given hms (recovers_list .expr (recovers_exprs comparators)) hcomparators read?_nil, rfl⟩
  | .mk (.call func args keywords) span => by
    simp only [Expr.Spelled, Expr.spelledAll_eq, Keyword.spelledAll_eq]
    refine recovers_node mappingForm_expr rfl fun ms hms ⟨hfunc, hargs, hkeywords⟩ => ?_
    exact ⟨_, cons_given hms (recovers_expr func) hfunc <|
      cons_list .expr hms (recovers_exprs args) hargs <|
      cons_list .keyword hms (recovers_keywords keywords) hkeywords read?_nil, rfl⟩
  | .mk (.constant value kind) span => by
    simp only [Expr.Spelled]
    refine recovers_node mappingForm_expr rfl fun ms hms ⟨hvalue, hkind⟩ => ?_
    exact ⟨_, cons_elidable hms (recovers_literal value) (fun h => by rw [h]) hvalue <|
      cons_option .text hms solid_text (fun a _ => recovers_text a) hkind read?_nil, rfl⟩
  | .mk (.attr value name) span => by
    simp only [Expr.Spelled]
    refine recovers_node mappingForm_expr rfl fun ms hms ⟨hvalue, hname⟩ => ?_
    exact ⟨_, cons_given hms (recovers_expr value) hvalue <|
      cons_given hms (recovers_text name) hname read?_nil, rfl⟩
  | .mk (.subscript value slice) span => by
    simp only [Expr.Spelled]
    refine recovers_node mappingForm_expr rfl fun ms hms ⟨hvalue, hslice⟩ => ?_
    exact ⟨_, cons_given hms (recovers_expr value) hvalue <|
      cons_given hms (recovers_expr slice) hslice read?_nil, rfl⟩
  | .mk (.starred value) span => by
    simp only [Expr.Spelled]
    exact recovers_node mappingForm_expr rfl fun ms hms hvalue =>
      ⟨_, cons_given hms (recovers_expr value) hvalue read?_nil, rfl⟩
  | .mk (.name id) span => by
    simp only [Expr.Spelled]
    exact recovers_node mappingForm_expr rfl fun ms hms hid =>
      ⟨_, cons_given hms (recovers_text id) hid read?_nil, rfl⟩
  | .mk (.list elts) span => by
    simp only [Expr.Spelled, Expr.spelledAll_eq]
    exact recovers_node mappingForm_expr rfl fun ms hms helts =>
      ⟨_, cons_list .expr hms (recovers_exprs elts) helts read?_nil, rfl⟩
  | .mk (.tuple elts) span => by
    simp only [Expr.Spelled, Expr.spelledAll_eq]
    exact recovers_node mappingForm_expr rfl fun ms hms helts =>
      ⟨_, cons_list .expr hms (recovers_exprs elts) helts read?_nil, rfl⟩
  | .mk (.index value) span => by
    simp only [Expr.Spelled]
    exact recovers_node mappingForm_expr rfl fun ms hms hvalue =>
      ⟨_, cons_given hms (recovers_expr value) hvalue read?_nil, rfl⟩
  | .mk (.bare kind) span => by
    have hvariant : variantOf exprVariants (.string (ExprForm.bare kind).kind) = .ok (bareExpr kind) := by
      cases kind <;> rfl
    simp only [Expr.Spelled]
    exact recovers_node mappingForm_expr hvariant fun ms hms _ => ⟨_, read?_nil, rfl⟩
termination_by structural e => e

theorem recovers_exprs : (es : List Expr) → ∀ e ∈ es, Recovers .expr e.Spelled e
  | [] => List.forall_mem_nil _
  | e :: es => List.forall_mem_cons.2 ⟨recovers_expr e, recovers_exprs es⟩
termination_by structural es => es

theorem recovers_keyword : (k : Keyword) → Recovers .keyword k.Spelled k
  | .mk arg value => by
    have hform : Shape.keyword.mappingForm = .record keywordFields keywordOf := rfl
    simp only [Keyword.Spelled]
    refine recovers_record hform fun layer ms hms ⟨harg, hvalue⟩ => ?_
    exact ⟨_, cons_option .text hms solid_text (fun a _ => recovers_text a) harg <|
      cons_given hms (recovers_expr value) hvalue read?_nil, rfl⟩
termination_by structural k => k

theorem recovers_keywords : (ks : List Keyword) → ∀ k ∈ ks, Recovers .keyword k.Spelled k
  | [] => List.forall_mem_nil _
  | k :: ks => List.forall_mem_cons.2 ⟨recovers_keyword k, recovers_keywords ks⟩
termination_by structural ks => ks

end

private theorem solid_param (p : Param) (v : Value) (h : p.Spelled v) : Solid v := by
  obtain ⟨ms, rfl, _⟩ := h
  exact ⟨by simp, by simp⟩

private theorem recovers_param (p : Param) : Recovers .param p.Spelled p := by
  have hform : Shape.param.mappingForm = .record paramFields paramOf := rfl
  refine recovers_record hform fun layer ms hms ⟨hname, hannot⟩ => ?_
  exact ⟨_, cons_given hms (recovers_text p.name) hname <|
    cons_option .expr hms solid_expr (fun e _ => recovers_expr e) hannot read?_nil, rfl⟩

private theorem recovers_params (p : Params) : Recovers .params p.Spelled p := by
  have hform : Shape.params.mappingForm = .record paramsFields paramsOf := rfl
  refine recovers_record hform fun layer ms hms ⟨hposOnly, hplain, hvariadic, hkeywordOnly,
    hkeywordDefaults, hkeywordVariadic, hdefaults⟩ => ?_
  have hdefault : ∀ d : Option Expr, Recovers (.optional .expr) (Optional Expr.Spelled d) d := fun d =>
    recovers_optional .expr solid_expr fun e _ => recovers_expr e
  exact ⟨_, cons_list .param hms (fun q _ => recovers_param q) hposOnly <|
    cons_list .param hms (fun q _ => recovers_param q) hplain <|
    cons_option .param hms solid_param (fun q _ => recovers_param q) hvariadic <|
    cons_list .param hms (fun q _ => recovers_param q) hkeywordOnly <|
    cons_list (.optional .expr) hms (fun d _ => hdefault d) hkeywordDefaults <|
    cons_option .param hms solid_param (fun q _ => recovers_param q) hkeywordVariadic <|
    cons_list .expr hms (fun e _ => recovers_expr e) hdefaults read?_nil, rfl⟩

mutual

theorem recovers_stmt : (st : Stmt) → Recovers .stmt st.Spelled st
  | .mk (.functionDef name params body decorators returns) span => by
    simp only [Stmt.Spelled, Stmt.spelledAll_eq]
    refine recovers_node mappingForm_stmt rfl fun ms hms ⟨hname, hparams, hbody, hdecorators, hreturns⟩ => ?_
    exact ⟨_, cons_given hms (recovers_text name) hname <|
      cons_given hms (recovers_params params) hparams <|
      cons_list .stmt hms (recovers_stmts body) hbody <|
      cons_list .expr hms (fun e _ => recovers_expr e) hdecorators <|
      cons_option .expr hms solid_expr (fun e _ => recovers_expr e) hreturns read?_nil, rfl⟩
  | .mk (.classDef name bases keywords body decorators) span => by
    simp only [Stmt.Spelled, Stmt.spelledAll_eq]
    refine recovers_node mappingForm_stmt rfl fun ms hms ⟨hname, hbases, hkeywords, hbody, hdecorators⟩ => ?_
    exact ⟨_, cons_given hms (recovers_text name) hname <|
      cons_list .expr hms (fun e _ => recovers_expr e) hbases <|
      cons_list .keyword hms (fun k _ => recovers_keyword k) hkeywords <|
      cons_list .stmt hms (recovers_stmts body) hbody <|
      cons_list .expr hms (fun e _ => recovers_expr e) hdecorators read?_nil, rfl⟩
  | .mk (.ret value) span => by
    simp only [Stmt.Spelled]
    exact recovers_node mappingForm_stmt rfl fun ms hms hvalue =>
      ⟨_, cons_option .expr hms solid_expr (fun e _ => recovers_expr e) hvalue read?_nil, rfl⟩
  | .mk (.assign targets value) span => by
    simp only [Stmt.Spelled]
    refine recovers_node mappingForm_stmt rfl fun ms hms ⟨htargets, hvalue⟩ => ?_
    exact ⟨_, cons_given hms (recovers_list .expr fun e _ => recovers_expr e) htargets <|
      cons_given hms (recovers_expr value) hvalue read?_nil, rfl⟩
  | .mk (.augAssign target op value) span => by
    simp only [Stmt.Spelled]
    refine recovers_node mappingForm_stmt rfl fun ms hms ⟨htarget, hop, hvalue⟩ => ?_
    exact ⟨_, cons_given hms (recovers_expr target) htarget <|
      cons_given hms (recovers_binaryOperator op) hop <|
      cons_given hms (recovers_expr value) hvalue read?_nil, rfl⟩
  | .mk (.annAssign target annot value simple) span => by
    simp only [Stmt.Spelled]
    refine recovers_node mappingForm_stmt rfl fun ms hms ⟨htarget, hannot, hvalue, hsimple⟩ => ?_
    exact ⟨_, cons_given hms (recovers_expr target) htarget <|
      cons_given hms (recovers_expr annot) hannot <|
      cons_option .expr hms solid_expr (fun e _ => recovers_expr e) hvalue <|
      cons_elidable hms (recovers_byte simple) (fun h => by rw [h]) hsimple read?_nil, rfl⟩
  | .mk (.forIn target iter body orelse) span => by
    simp only [Stmt.Spelled, Stmt.spelledAll_eq]
    refine recovers_node mappingForm_stmt rfl fun ms hms ⟨htarget, hiter, hbody, horelse⟩ => ?_
    exact ⟨_, cons_given hms (recovers_expr target) htarget <|
      cons_given hms (recovers_expr iter) hiter <|
      cons_list .stmt hms (recovers_stmts body) hbody <|
      cons_list .stmt hms (recovers_stmts orelse) horelse read?_nil, rfl⟩
  | .mk (.whileDo test body orelse) span => by
    simp only [Stmt.Spelled, Stmt.spelledAll_eq]
    refine recovers_node mappingForm_stmt rfl fun ms hms ⟨htest, hbody, horelse⟩ => ?_
    exact ⟨_, cons_given hms (recovers_expr test) htest <|
      cons_list .stmt hms (recovers_stmts body) hbody <|
      cons_list .stmt hms (recovers_stmts orelse) horelse read?_nil, rfl⟩
  | .mk (.ifElse test body orelse) span => by
    simp only [Stmt.Spelled, Stmt.spelledAll_eq]
    refine recovers_node mappingForm_stmt rfl fun ms hms ⟨htest, hbody, horelse⟩ => ?_
    exact ⟨_, cons_given hms (recovers_expr test) htest <|
      cons_list .stmt hms (recovers_stmts body) hbody <|
      cons_list .stmt hms (recovers_stmts orelse) horelse read?_nil, rfl⟩
  | .mk (.expr value) span => by
    simp only [Stmt.Spelled]
    exact recovers_node mappingForm_stmt rfl fun ms hms hvalue =>
      ⟨_, cons_given hms (recovers_expr value) hvalue read?_nil, rfl⟩
  | .mk .pass span => by
    simp only [Stmt.Spelled]
    exact recovers_node mappingForm_stmt rfl fun ms hms _ => ⟨_, read?_nil, rfl⟩
  | .mk .breakLoop span => by
    simp only [Stmt.Spelled]
    exact recovers_node mappingForm_stmt rfl fun ms hms _ => ⟨_, read?_nil, rfl⟩
  | .mk .continueLoop span => by
    simp only [Stmt.Spelled]
    exact recovers_node mappingForm_stmt rfl fun ms hms _ => ⟨_, read?_nil, rfl⟩
  | .mk (.bare kind) span => by
    have hvariant : variantOf stmtVariants (.string (StmtForm.bare kind).kind) = .ok (bareStmt kind) := by
      cases kind <;> rfl
    simp only [Stmt.Spelled]
    exact recovers_node mappingForm_stmt hvariant fun ms hms _ => ⟨_, read?_nil, rfl⟩
termination_by structural st => st

theorem recovers_stmts : (ss : List Stmt) → ∀ st ∈ ss, Recovers .stmt st.Spelled st
  | [] => List.forall_mem_nil _
  | st :: ss => List.forall_mem_cons.2 ⟨recovers_stmt st, recovers_stmts ss⟩
termination_by structural ss => ss

end

private theorem unit_recovered (u : SourceUnit) {v : Value} (hv : v.DistinctKeys) (h : u.Spelled v) :
    (decodeUnit v).toOption = some u := by
  obtain ⟨ms, rfl, htag, hfields⟩ := h
  have hown : ∃ variant own, namedVariantOf unitVariants (.string u.kind) = .ok variant ∧
      Record.read? .inner variant.fields ms = some own ∧ variant.build own = u := by
    cases u with
    | module body =>
      exact ⟨_, _, rfl, cons_list .stmt hv (recovers_stmts body) hfields read?_nil, rfl⟩
    | interactive => exact ⟨_, _, rfl, read?_nil, rfl⟩
    | expression => exact ⟨_, _, rfl, read?_nil, rfl⟩
    | functionType => exact ⟨_, _, rfl, read?_nil, rfl⟩
  obtain ⟨variant, own, hvariant, hown, hbuild⟩ := hown
  cases hv with
  | object keys each =>
    rw [decodeUnit_object keys, tagKey, htag]
    simp [hvariant, hown, hbuild]

end Schema

namespace SourceUnit

/-- Whatever spelling of a unit is decoded, the unit comes out. -/
theorem ofValue_of_spelled {u : SourceUnit} {v : Json.Value} (hv : v.DistinctKeys) (h : u.Spelled v) :
    ofValue v = .ok u := by
  rw [← Schema.toOption_eq_some_iff, ofValue_toOption hv]
  exact Schema.unit_recovered u hv h

/-- One annotated assignment of an integer that 64 signed bits do not hold. -/
def wideAssignment : SourceUnit :=
  .module [.mk (.annAssign (.mk (.name "x") none) (.mk (.name "int") none)
    (some (.mk (.constant (.bigInt "9223372036854775808") none) none)) 0) (some ⟨⟨3, 0⟩, ⟨4, 0⟩⟩)]

/-- A spelling of it with members that mean nothing, with columns left out and with a null. -/
def wideSpelling : Json.Value :=
  .object [("body", .array [.object [("value", .object [("value", .number (.int 9223372036854775808)),
      ("kind", .null), ("_t", .string "Constant")]),
    ("target", .object [("_t", .string "Name"), ("id", .string "x"), ("ctx", .null)]),
    ("lineno", .number (.int 3)), ("end_lineno", .number (.int 4)), ("_t", .string "AnnAssign"),
    ("annotation", .object [("id", .string "int"), ("_t", .string "Name")])]]),
    ("type_ignores", .array []), ("_t", .string "Module")]

private theorem wideSpelling_distinctKeys : wideSpelling.DistinctKeys := by decide

private theorem wideSpelling_spelled : wideAssignment.Spelled wideSpelling := by
  have hunplaced : ∀ {ms : List (String × Json.Value)},
      (∀ key ∈ ["lineno", "col_offset", "end_lineno", "end_col_offset"], ms.lookup key = none) →
      Spelling.Placed none ms := by
    intro ms h
    exact ⟨.inl (h _ (by simp)), fun key hkey => .inl (.inl (h key (List.mem_cons_of_mem _ hkey)))⟩
  have htarget : (Expr.mk (.name "x") none).Spelled
      (.object [("_t", .string "Name"), ("id", .string "x"), ("ctx", .null)]) := by
    rw [Expr.Spelled]
    exact ⟨_, rfl, rfl, hunplaced (by decide), _, rfl, rfl⟩
  have hannot : (Expr.mk (.name "int") none).Spelled
      (.object [("id", .string "int"), ("_t", .string "Name")]) := by
    rw [Expr.Spelled]
    exact ⟨_, rfl, rfl, hunplaced (by decide), _, rfl, rfl⟩
  have hvalue : (Expr.mk (.constant (.bigInt "9223372036854775808") none) none).Spelled
      (.object [("value", .number (.int 9223372036854775808)), ("kind", .null),
        ("_t", .string "Constant")]) := by
    rw [Expr.Spelled]
    exact ⟨_, rfl, rfl, hunplaced (by decide),
      .inr ⟨_, rfl, 9223372036854775808, by norm_num, by decide, rfl⟩, .inr ⟨_, rfl, .inl ⟨rfl, rfl⟩⟩⟩
  refine ⟨_, rfl, rfl, .inr ⟨_, rfl, _, rfl, .cons ?_ .nil⟩⟩
  rw [Stmt.Spelled]
  refine ⟨_, rfl, rfl, ?_, ⟨_, rfl, htarget⟩, ⟨_, rfl, hannot⟩, .inr ⟨_, rfl, .inr ⟨_, rfl, hvalue⟩⟩,
    .inl ⟨rfl, rfl⟩⟩
  exact ⟨⟨_, rfl, by norm_num, rfl⟩, .inr ⟨rfl, .inl rfl⟩, .inl ⟨_, rfl, by norm_num, rfl⟩,
    .inr ⟨rfl, .inl rfl⟩⟩

theorem wideSpelling_recovered :
    wideSpelling.DistinctKeys ∧ wideAssignment.Spelled wideSpelling ∧
      ofValue wideSpelling = .ok wideAssignment :=
  ⟨wideSpelling_distinctKeys, wideSpelling_spelled,
    ofValue_of_spelled wideSpelling_distinctKeys wideSpelling_spelled⟩

end SourceUnit

end RegionIR
