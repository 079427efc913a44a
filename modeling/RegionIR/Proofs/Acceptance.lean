import RegionIR.Proofs.Meaning
import RegionIR.Proofs.Refusals
/-!
# Functions that are accepted

There is no offence in a function without loops, so lowering accepts it.
-/
namespace RegionIR

namespace Expr

mutual

theorem offence?_of_supported : (e : Expr) → e.supported = true → e.offence? = none
  | .mk (.name _) _, _ => rfl
  | .mk (.constant _ _) _, _ => rfl
  | .mk (.binOp left _ right) _, h => by
    rw [supported, Bool.and_eq_true] at h
    rw [offence?, offence?_of_supported left h.1, offence?_of_supported right h.2, Option.none_or]
  | .mk (.unaryOp _ e) _, h => by
    rw [supported] at h
    rw [offence?, offence?_of_supported e h]
  | .mk (.boolOp op values) _, h => by
    rw [supported, Bool.and_eq_true, decide_eq_true_eq] at h
    rw [offence?, if_neg (by omega), firstOffence?_of_supported values h.2]
  | .mk (.compare left ops comparators) _, h => by
    rw [supported, Bool.and_eq_true, Bool.and_eq_true, decide_eq_true_eq] at h
    obtain ⟨⟨hpos, hlen⟩, hleft, hothers⟩ := h
    rw [offence?, if_neg (by simp [hpos, hlen]), offence?_of_supported left hleft,
      firstOffence?_of_supported comparators hothers, Option.none_or]
  | .mk (.call func args keywords) _, h => by
    rw [supported, Bool.and_eq_true] at h
    have hnamed : keywords.find? (·.arg.isNone) = none := by
      rw [List.find?_eq_none]
      intro k hk
      have := List.all_eq_true.mp h.2 k hk
      cases hk : k.arg <;> simp_all
    rw [offence?, argumentOffence?_of_supported args h.1, Option.none_or, Keyword.offence?, hnamed,
      Option.map_none]
  | .mk (.attr _ _) _, h => by simp [supported] at h
  | .mk (.subscript _ _) _, h => by simp [supported] at h
  | .mk (.starred _) _, h => by simp [supported] at h
  | .mk (.list _) _, h => by simp [supported] at h
  | .mk (.tuple _) _, h => by simp [supported] at h
  | .mk (.index _) _, h => by simp [supported] at h
  | .mk (.bare _) _, h => by simp [supported] at h

theorem firstOffence?_of_supported : (es : List Expr) → supportedAll es = true → firstOffence? es = none
  | [], _ => rfl
  | e :: rest, h => by
    rw [supportedAll, Bool.and_eq_true] at h
    rw [firstOffence?, offence?_of_supported e h.1, firstOffence?_of_supported rest h.2, Option.none_or]

theorem argumentOffence?_of_supported : (es : List Expr) → supportedAll es = true →
    argumentOffence? es = none
  | [], _ => rfl
  | e :: rest, h => by
    rw [supportedAll, Bool.and_eq_true] at h
    have hstar : ¬ e.isStarred = true := by
      obtain ⟨form, span⟩ := e
      cases form <;> simp_all [isStarred, supported]
    rw [argumentOffence?, if_neg hstar, offence?_of_supported e h.1,
      argumentOffence?_of_supported rest h.2, Option.none_or]

end

private theorem anyOffence?_of_supported {value : Option Expr} (h : value.all supported = true) :
    anyOffence? value = none := by
  cases value with
  | none => rfl
  | some e => exact offence?_of_supported e h

private theorem targetOffence?_of_name {target : Expr} (h : target.name?.isSome = true)
    (span : Option Span)
    (construct : String → Construct) : target.targetOffence? span construct = none := if_pos h

end Expr

namespace Stmt

variable (site : Site)

mutual

theorem offence?_of_loopFree : (st : Stmt) → st.loopFree = true → st.offence? site = none
  | .mk (.ret value) _, h => by
    rw [loopFree] at h
    rw [offence?, Expr.anyOffence?_of_supported h]
  | .mk (.assign targets value) _, h => by
    obtain _ | ⟨target, _ | ⟨_, _⟩⟩ := targets
    · simp [loopFree] at h
    · rw [loopFree, Bool.and_eq_true] at h
      rw [offence?, targetsOffence?, Expr.targetOffence?_of_name h.1,
        Expr.offence?_of_supported value h.2, Option.none_or]
    · simp [loopFree] at h
  | .mk (.augAssign target op value) _, h => by
    rw [loopFree, Bool.and_eq_true] at h
    rw [offence?, Expr.targetOffence?_of_name h.1, Expr.offence?_of_supported value h.2, Option.none_or]
  | .mk (.annAssign target annot value simple) _, h => by
    rw [loopFree, Bool.and_eq_true] at h
    rw [offence?, Expr.targetOffence?_of_name h.1, Expr.anyOffence?_of_supported h.2, ite_self,
      Option.none_or]
  | .mk (.ifElse test yes no) _, h => by
    rw [loopFree, Bool.and_eq_true, Bool.and_eq_true] at h
    rw [offence?, Expr.offence?_of_supported test h.1, firstOffence?_of_loopFree yes h.2.1,
      firstOffence?_of_loopFree no h.2.2, Option.none_or, Option.none_or]
  | .mk (.expr value) _, h => by
    rw [loopFree] at h
    rw [offence?, Expr.offence?_of_supported value h]
  | .mk .pass _, _ => rfl
  | .mk (.functionDef _ _ _ _ _) _, h => by simp [loopFree] at h
  | .mk (.classDef _ _ _ _ _) _, h => by simp [loopFree] at h
  | .mk (.forIn _ _ _ _) _, h => by simp [loopFree] at h
  | .mk (.whileDo _ _ _) _, h => by simp [loopFree] at h
  | .mk .breakLoop _, h => by simp [loopFree] at h
  | .mk .continueLoop _, h => by simp [loopFree] at h
  | .mk (.bare _) _, h => by simp [loopFree] at h

theorem firstOffence?_of_loopFree : (stmts : List Stmt) → loopFreeAll stmts = true →
    firstOffence? site stmts = none
  | [], _ => rfl
  | st :: rest, h => by
    rw [loopFreeAll, Bool.and_eq_true] at h
    rw [firstOffence?, offence?_of_loopFree st h.1, firstOffence?_of_loopFree rest h.2, Option.none_or]

end

theorem firstOffence?_of_all {stmts : List Stmt} (h : ∀ st ∈ stmts, st.offence? site = none) :
    firstOffence? site stmts = none := by
  induction stmts with
  | nil => rfl
  | cons st rest ih =>
    rw [firstOffence?, h st List.mem_cons_self, Option.none_or]
    exact ih fun st' hst => h st' (List.mem_cons_of_mem _ hst)

end Stmt

end RegionIR
