import ConstraintTyping.Proofs.Infer.Constraints
import ConstraintTyping.Proofs.Types.Tables

/-!
# Every expression is on record

A walk records the type of every expression of its tree, and of no other.  When no number occurs
twice in the tree, what is on record for a number is what was found for its expression.
-/

namespace ConstraintTyping

open TypeTree

/-- The numbers of the expressions among nodes. -/
def exprIds (nodes : List TreeNode) : List ExprId := (nodes.filterMap TreeNode.expr?).map Expr.id

section Ids

@[simp] theorem exprIds_nil : exprIds [] = [] := rfl

@[simp] theorem exprIds_append (ns ms : List TreeNode) :
    exprIds (ns ++ ms) = exprIds ns ++ exprIds ms := by
  rw [exprIds, List.filterMap_append, List.map_append]
  rfl

@[simp] theorem exprIds_expr (e : Expr) (ns : List TreeNode) :
    exprIds (.expr e :: ns) = e.id :: exprIds ns := rfl

@[simp] theorem exprIds_arm (a : Arm) (ns : List TreeNode) :
    exprIds (.arm a :: ns) = exprIds ns := rfl

@[simp] theorem exprIds_pattern (p : Pattern) (ns : List TreeNode) :
    exprIds (.pattern p :: ns) = exprIds ns := rfl

@[simp] theorem exprIds_params (params : List Param) :
    exprIds (params.map TreeNode.param) = [] := by
  induction params with
  | nil => rfl
  | cons p params ih => exact ih

theorem exprIds_walk (e : Expr) : exprIds e.walk = e.subexprs.map Expr.id := rfl

end Ids

namespace Found

variable {S S₁ S' : Found} {ids ids' : List ExprId}

/-- The types of expressions with given numbers are recorded, in some order. -/
def Adds (S S' : Found) (ids : List ExprId) : Prop :=
  ∃ new, S'.records = S.records ++ new ∧ (new.map Prod.fst).Perm ids

theorem Adds.of_eq (h : S'.records = S.records) : S.Adds S' [] :=
  ⟨[], by rw [h, List.append_nil], .nil⟩

theorem Widens.adds (h : S.Widens S') : S.Adds S' [] := .of_eq h.records

theorem Adds.trans (h : S.Adds S₁ ids) (h' : S₁.Adds S' ids') : S.Adds S' (ids ++ ids') := by
  obtain ⟨new, heq, hperm⟩ := h
  obtain ⟨new', heq', hperm'⟩ := h'
  refine ⟨new ++ new', by rw [heq', heq, List.append_assoc], ?_⟩
  rw [List.map_append]
  exact hperm.append hperm'

theorem Adds.widen (h : S.Adds S₁ ids) (h' : S₁.Widens S') : S.Adds S' ids := by
  simpa using h.trans h'.adds

/-- Asking for more records nothing. -/
theorem Adds.ask (h : S.Adds S' ids) (l r : TypeTree) : S.Adds (S'.ask l r) ids := by
  obtain ⟨new, heq, hperm⟩ := h
  exact ⟨new, heq, hperm⟩

theorem Adds.askAll (h : S.Adds S' ids) (pairs : List (TypeTree × TypeTree)) :
    S.Adds (S'.askAll pairs) ids := by
  obtain ⟨new, heq, hperm⟩ := h
  exact ⟨new, heq, hperm⟩

theorem Adds.record (h : S.Adds S' ids) (id : ExprId) (t : TypeTree) :
    S.Adds (S'.record id t) (id :: ids) := by
  obtain ⟨new, heq, hperm⟩ := h
  refine ⟨new ++ [(id, t)], ?_, ?_⟩
  · show S'.records ++ _ = _
    rw [heq, List.append_assoc]
  · rw [List.map_append]
    exact (List.perm_append_singleton id _).trans (hperm.cons id)

end Found

theorem CallFinds.adds {id : ExprId} {S S' : Found} {f t : TypeTree} {ts : List TypeTree}
    (h : CallFinds id S f ts t S') : S.Adds S' [] := by
  cases h with
  | unknown _ hx => exact hx.toWidens.adds.ask _ _
  | known _ hsite hx =>
    refine Found.Adds.ask (Found.Adds.widen (.of_eq ?_) hx.toWidens) _ _
    rw [hsite]
    split <;> rfl

section Adds

variable {W : Surroundings}

mutual

/-- A walk over an expression records the numbers of its tree. -/
theorem Finds.adds {S S' : Found} {Γ Δ : Env} {e : Expr} {t : TypeTree}
    (h : Finds W S Γ e t S' Δ) : S.Adds S' (exprIds e.walk) := by
  cases h with
  | mk h _ =>
    rw [Expr.walk, exprIds_expr]
    exact h.adds.record _ _

theorem FormFinds.adds {id : ExprId} {S S' : Found} {Γ Δ : Env} {form : ExprForm} {t : TypeTree}
    (h : FormFinds W id S Γ form t S' Δ) : S.Adds S' (exprIds form.walkParts) := by
  cases h with
  | literal hlit => cases hlit <;> exact .of_eq rfl
  | localName _ => exact .of_eq rfl
  | generalName _ _ ht => exact ht.toWidens.adds
  | fixedName _ _ => exact .of_eq rfl
  | call hcallee hargs hcall =>
    rw [ExprForm.walkParts, exprIds_append]
    simpa using (hcallee.adds.trans hargs.adds).trans hcall.adds
  | logical _ hleft hright =>
    rw [ExprForm.walkParts, exprIds_append]
    exact ((hleft.adds.trans hright.adds).ask _ _).ask _ _
  | overloaded _ hleft hright hx =>
    rw [ExprForm.walkParts, exprIds_append]
    exact (((hleft.adds.trans hright.adds).widen hx.toWidens).ask _ _).ask _ _
  | neg hoperand hx => exact (hoperand.adds.widen hx.toWidens).ask _ _
  | not hoperand => exact hoperand.adds.ask _ _
  | addressOf hoperand => exact hoperand.adds
  | deref hoperand hx => exact (hoperand.adds.widen hx.toWidens).ask _ _
  | field hreceiver _ hopens _ _ => exact (hreceiver.adds.widen hopens.toWidens).ask _ _
  | construct hitems hopens _ => exact (hitems.adds.widen hopens.toWidens).askAll _
  | tuple hitems => exact hitems.adds
  | array hx hitems => exact hx.toWidens.adds.trans hitems.adds
  | block hitems => exact hitems.adds
  | ifThen hcondition hthen =>
    rw [ExprForm.walkParts, exprIds_append]
    exact ((hcondition.adds.ask _ _).trans hthen.adds).ask _ _
  | ifElse hcondition hthen helse =>
    rw [ExprForm.walkParts, exprIds_append, exprIds_append]
    exact (((hcondition.adds.ask _ _).trans hthen.adds).trans helse.adds).ask _ _
  | select hscrutinee hx harms =>
    rw [ExprForm.walkParts, exprIds_append]
    exact (hscrutinee.adds.widen hx.toWidens).trans harms.adds
  | loop hcondition hbody =>
    rw [ExprForm.walkParts, exprIds_append]
    exact (hcondition.adds.ask _ _).trans hbody.adds
  | define hinit => exact hinit.adds
  | defineAs hinit hwritten => exact (hinit.adds.widen hwritten.toWidens).ask _ _
  | assign htarget hvalue =>
    rw [ExprForm.walkParts, exprIds_append]
    exact (htarget.adds.trans hvalue.adds).ask _ _
  | ascribe hexpr hwritten => exact (hexpr.adds.widen hwritten.toWidens).ask _ _
  | lambda hparams hbody =>
    rw [ExprForm.walkParts, exprIds_append, exprIds_params]
    exact hparams.widens.adds.trans hbody.adds

theorem AllFind.adds {S S' : Found} {Γ Δ : Env} {es : List Expr} {ts : List TypeTree}
    (h : AllFind W S Γ es ts S' Δ) : S.Adds S' (exprIds (walkExprs es)) := by
  cases h with
  | nil => exact .of_eq rfl
  | cons he hrest =>
    rw [walkExprs, exprIds_append]
    exact he.adds.trans hrest.adds

theorem ElementsFind.adds {elem : TypeTree} {S S' : Found} {Γ Δ : Env} {es : List Expr}
    {ts : List TypeTree} (h : ElementsFind W elem S Γ es ts S' Δ) :
    S.Adds S' (exprIds (walkExprs es)) := by
  cases h with
  | nil => exact .of_eq rfl
  | cons he hrest =>
    rw [walkExprs, exprIds_append]
    exact (he.adds.ask _ _).trans hrest.adds

theorem ArmsFind.adds {s t : TypeTree} {S S' : Found} {Γ : Env} {arms : List Arm}
    (h : ArmsFind W s t S Γ arms S') : S.Adds S' (exprIds (walkArms arms)) := by
  cases h with
  | nil => exact .of_eq rfl
  | cons hpattern hbody hrest =>
    rw [walkArms, exprIds_arm, exprIds_append, exprIds_append]
    exact ((hpattern.adds.trans hbody.adds).ask _ _).trans hrest.adds

theorem PatternFinds.adds {S S' : Found} {Γ Δ : Env} {p : Pattern} {s : TypeTree}
    (h : PatternFinds W S Γ p s S' Δ) : S.Adds S' (exprIds p.walk) := by
  cases h with
  | wildcard => exact .of_eq rfl
  | binding => exact .of_eq rfl
  | literal hexpr =>
    rw [Pattern.walk, exprIds_pattern]
    exact hexpr.adds.ask _ _
  | tuple hxs hitems =>
    rw [Pattern.walk, exprIds_pattern]
    simpa using (hxs.toWidens.adds.ask _ _).trans hitems.adds
  | tag hopens hitems =>
    rw [Pattern.walk, exprIds_pattern]
    simpa using (hopens.toWidens.adds.ask _ _).trans hitems.adds

theorem PatternsFind.adds {S S' : Found} {Γ Δ : Env} {ps : List Pattern} {ts : List TypeTree}
    (h : PatternsFind W S Γ ps ts S' Δ) : S.Adds S' (exprIds (walkPatterns ps)) := by
  cases h with
  | nil => exact .of_eq rfl
  | cons hp hrest =>
    rw [walkPatterns, exprIds_append]
    exact hp.adds.trans hrest.adds

end

end Adds

end ConstraintTyping
