import ConstraintTyping.Proofs.Infer.Typing

/-!
# The names that a typing looks at

A derivation asks how names can be used only at the names that stand in the tree.
-/

namespace ConstraintTyping

namespace Typing

variable {J : Typing} {U : Name → TypeTree → Prop} {nodes nodes' : List TreeNode}

/-- At the names among nodes, every use is one of the uses `U`. -/
def UsesOnly (J : Typing) (U : Name → TypeTree → Prop) (nodes : List TreeNode) : Prop :=
  ∀ id span name, TreeNode.expr (.mk id span (.ident name)) ∈ nodes →
    ∀ t, J.Uses name t → U name t

theorem UsesOnly.mono (h : J.UsesOnly U nodes) (hsub : nodes' ⊆ nodes) : J.UsesOnly U nodes' :=
  fun id span name hmem => h id span name (hsub hmem)

theorem UsesOnly.left (h : J.UsesOnly U (nodes ++ nodes')) : J.UsesOnly U nodes :=
  h.mono (List.subset_append_left _ _)

theorem UsesOnly.right (h : J.UsesOnly U (nodes ++ nodes')) : J.UsesOnly U nodes' :=
  h.mono (List.subset_append_right _ _)

theorem UsesOnly.tail {node : TreeNode} (h : J.UsesOnly U (node :: nodes)) : J.UsesOnly U nodes :=
  h.mono (List.subset_cons_self _ _)

end Typing

section Restrict

variable {J : Typing} {U : Name → TypeTree → Prop}

mutual

/-- A derivation goes through with the uses of the names in its tree. -/
theorem HasType.restrict {Γ Δ : Env} {e : Expr} {t : TypeTree} (h : HasType J Γ e t Δ)
    (hU : J.UsesOnly U e.walk) : HasType { J with Uses := U } Γ e t Δ := by
  cases h with
  | @mk _ _ id span form h =>
    rw [Expr.walk] at hU
    refine @HasType.mk { J with Uses := U } Γ Δ id span form ?_
    refine h.restrict hU.tail fun name hname t huse => ?_
    exact hU id span name (by rw [hname]; exact List.mem_cons_self) t huse

theorem FormHasType.restrict {Γ Δ : Env} {form : ExprForm} {t : TypeTree}
    (h : FormHasType J Γ form t Δ) (hU : J.UsesOnly U form.walkParts)
    (hname : ∀ name, form = .ident name → ∀ t, J.Uses name t → U name t) :
    FormHasType { J with Uses := U } Γ form t Δ := by
  cases h with
  | literal h => exact .literal h
  | localName h => exact .localName h
  | globalName h huse => exact .globalName h (hname _ rfl _ huse)
  | call hcallee hargs hmeta h =>
    rw [ExprForm.walkParts] at hU
    exact .call (hcallee.restrict hU.left) (hargs.restrict hU.right) hmeta h
  | logical hop hleft hright hl hr =>
    rw [ExprForm.walkParts] at hU
    exact .logical hop (hleft.restrict hU.left) (hright.restrict hU.right) hl hr
  | comparison hop hleft hright h =>
    rw [ExprForm.walkParts] at hU
    exact .comparison hop (hleft.restrict hU.left) (hright.restrict hU.right) h
  | arithmetic hop hcmp hleft hright h hl hr =>
    rw [ExprForm.walkParts] at hU
    exact .arithmetic hop hcmp (hleft.restrict hU.left) (hright.restrict hU.right) h hl hr
  | neg hoperand h =>
    rw [ExprForm.walkParts] at hU
    exact .neg (hoperand.restrict hU) h
  | not hoperand h =>
    rw [ExprForm.walkParts] at hU
    exact .not (hoperand.restrict hU) h
  | addressOf hoperand =>
    rw [ExprForm.walkParts] at hU
    exact .addressOf (hoperand.restrict hU)
  | deref hoperand h =>
    rw [ExprForm.walkParts] at hU
    exact .deref (hoperand.restrict hU) h
  | field hreceiver hproduct hfield ht hr =>
    rw [ExprForm.walkParts] at hU
    exact .field (hreceiver.restrict hU) ⟨hproduct.1, hproduct.2, hproduct.3⟩ hfield ht hr
  | construct hitems hproduct h =>
    rw [ExprForm.walkParts] at hU
    exact .construct (hitems.restrict hU) ⟨hproduct.1, hproduct.2, hproduct.3⟩ h
  | tuple hitems =>
    rw [ExprForm.walkParts] at hU
    exact .tuple (hitems.restrict hU)
  | array hitems h =>
    rw [ExprForm.walkParts] at hU
    exact .array (hitems.restrict hU) h
  | block hitems =>
    rw [ExprForm.walkParts] at hU
    exact .block (hitems.restrict hU)
  | ifThen hcondition hthen hc ht =>
    rw [ExprForm.walkParts] at hU
    exact .ifThen (hcondition.restrict hU.left) (hthen.restrict hU.right) hc ht
  | ifElse hcondition hthen helse hc h =>
    rw [ExprForm.walkParts] at hU
    exact .ifElse (hcondition.restrict hU.left.left) (hthen.restrict hU.left.right)
      (helse.restrict hU.right) hc h
  | select hscrutinee harms =>
    rw [ExprForm.walkParts] at hU
    exact .select (hscrutinee.restrict hU.left) (harms.restrict hU.right)
  | loop hcondition hbody hc =>
    rw [ExprForm.walkParts] at hU
    exact .loop (hcondition.restrict hU.left) (hbody.restrict hU.right) hc
  | define hinit =>
    rw [ExprForm.walkParts] at hU
    exact .define (hinit.restrict hU)
  | defineAs hinit hwritten h =>
    rw [ExprForm.walkParts] at hU
    exact .defineAs (hinit.restrict hU) hwritten h
  | assign htarget hvalue h =>
    rw [ExprForm.walkParts] at hU
    exact .assign (htarget.restrict hU.left) (hvalue.restrict hU.right) h
  | ascribe hexpr hwritten h =>
    rw [ExprForm.walkParts] at hU
    exact .ascribe (hexpr.restrict hU) hwritten h
  | lambda hparams hbody =>
    rw [ExprForm.walkParts] at hU
    exact .lambda hparams (hbody.restrict hU.right)

theorem AllHaveType.restrict {Γ Δ : Env} {es : List Expr} {ts : List TypeTree}
    (h : AllHaveType J Γ es ts Δ) (hU : J.UsesOnly U (walkExprs es)) :
    AllHaveType { J with Uses := U } Γ es ts Δ := by
  cases h with
  | nil => exact .nil
  | cons he hrest =>
    rw [walkExprs] at hU
    exact .cons (he.restrict hU.left) (hrest.restrict hU.right)

theorem ArmsHaveType.restrict {Γ : Env} {s t : TypeTree} {arms : List Arm}
    (h : ArmsHaveType J s t Γ arms) (hU : J.UsesOnly U (walkArms arms)) :
    ArmsHaveType { J with Uses := U } s t Γ arms := by
  cases h with
  | nil => exact .nil
  | cons hpattern hbody h hrest =>
    rw [walkArms] at hU
    exact .cons (hpattern.restrict hU.tail.left.left) (hbody.restrict hU.tail.left.right) h
      (hrest.restrict hU.tail.right)

theorem PatternHasType.restrict {Γ Δ : Env} {p : Pattern} {s : TypeTree}
    (h : PatternHasType J Γ p s Δ) (hU : J.UsesOnly U p.walk) :
    PatternHasType { J with Uses := U } Γ p s Δ := by
  cases h with
  | wildcard => exact .wildcard
  | binding => exact .binding
  | literal hexpr h =>
    rw [Pattern.walk] at hU
    exact .literal (hexpr.restrict hU.tail) h
  | tuple h hitems =>
    rw [Pattern.walk] at hU
    exact .tuple h (hitems.restrict hU.tail)
  | tag hproduct h hitems =>
    rw [Pattern.walk] at hU
    exact .tag ⟨hproduct.1, hproduct.2, hproduct.3⟩ h (hitems.restrict hU.tail)

theorem PatternsHaveType.restrict {Γ Δ : Env} {ps : List Pattern} {ts : List TypeTree}
    (h : PatternsHaveType J Γ ps ts Δ) (hU : J.UsesOnly U (walkPatterns ps)) :
    PatternsHaveType { J with Uses := U } Γ ps ts Δ := by
  cases h with
  | nil => exact .nil
  | cons hp hrest =>
    rw [walkPatterns] at hU
    exact .cons (hp.restrict hU.left) (hrest.restrict hU.right)

end

end Restrict

end ConstraintTyping
