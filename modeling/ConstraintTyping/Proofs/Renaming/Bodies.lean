import ConstraintTyping.Proofs.Renaming.Constructs

/-!
# Bodies side by side

The walk of a whole body, assembled from the rules of its constructs: a body, and the same body with
other names for the type variables written in it, are walked in step.  So are the members of a group
of functions, each of which can be renamed in its own way.
-/

namespace ConstraintTyping

open Store StoreM FindM

namespace SideBySide

open Renaming

variable (J : SideBySide) (ρ : Name → Name)

/-- What is written at nodes goes with the renaming, and the names that they refer to may be referred
to. -/
def Fits (nodes : List TreeNode) : Prop :=
  ∀ node ∈ nodes, (∀ t ∈ node.written, J.R.Follows ρ t) ∧
    ∀ name, node.ident? = some name → name ∈ J.names

variable {J ρ} {nodes nodes' : List TreeNode}

theorem Fits.mono (h : J.Fits ρ nodes) (hsub : nodes' ⊆ nodes) : J.Fits ρ nodes' :=
  fun node hnode => h node (hsub hnode)

theorem Fits.left (h : J.Fits ρ (nodes ++ nodes')) : J.Fits ρ nodes :=
  h.mono (List.subset_append_left _ _)

theorem Fits.right (h : J.Fits ρ (nodes ++ nodes')) : J.Fits ρ nodes' :=
  h.mono (List.subset_append_right _ _)

theorem Fits.head {node : TreeNode} (h : J.Fits ρ (node :: nodes)) :
    (∀ t ∈ node.written, J.R.Follows ρ t) ∧ ∀ name, node.ident? = some name → name ∈ J.names :=
  h node List.mem_cons_self

theorem Fits.tail {node : TreeNode} (h : J.Fits ρ (node :: nodes)) : J.Fits ρ nodes :=
  h.mono (List.subset_cons_self _ _)

section Statements

variable (J ρ)

/-- An expression and the renamed one have types that are alike. -/
def InferAlike (e : Expr) : Prop :=
  ∀ w, J.Walks e.infer (e.renameVars ρ).infer w J.R.Alike

/-- The form of an expression and the renamed one have types that are alike. -/
def FormsAlike (form : ExprForm) : Prop :=
  ∀ (id : ExprId) (span : Span) (w : Stores),
    J.Walks (form.infer id span) ((form.renameVars ρ).infer id span) w J.R.Alike

/-- The expressions of a list and the renamed ones have types that are alike. -/
def AllInferAlike (es : List Expr) : Prop :=
  ∀ w, J.Walks (inferAll es) (inferAll (renameExprs ρ es)) w J.R.AllAlike

/-- The elements of an array are asked to have element types that are alike. -/
def ElementsAlike (es : List Expr) : Prop :=
  ∀ (w : Stores) (elem elem' : TypeId), J.R.Alike w elem elem' →
    J.Walks (inferElements elem es) (inferElements elem' (renameExprs ρ es)) w fun _ _ _ => True

/-- The arms of a match are asked to go with types that are alike. -/
def ArmsAlike (arms : List Arm) : Prop :=
  ∀ (w : Stores) (scrutinee scrutinee' result result' : TypeId), J.R.Alike w scrutinee scrutinee' →
    J.R.Alike w result result' →
    J.Walks (inferArms scrutinee result arms) (inferArms scrutinee' result' (renameArms ρ arms)) w
      fun _ _ _ => True

/-- A pattern is checked against types that are alike. -/
def CheckAlike (p : Pattern) : Prop :=
  ∀ (w : Stores) (ty ty' : TypeId) (span : Span), J.R.Alike w ty ty' →
    J.Walks (p.check ty span) ((p.renameVars ρ).check ty' span) w fun _ _ _ => True

/-- The patterns of a list are checked against types that are alike. -/
def AllCheckAlike (ps : List Pattern) : Prop :=
  ∀ (w : Stores) (tys tys' : List TypeId) (span : Span), J.R.AllAlike w tys tys' →
    J.Walks (checkAll tys span ps) (checkAll tys' span (renamePatterns ρ ps)) w fun _ _ _ => True

end Statements

/-! ## Expressions -/

-- each rule below unfolds one layer of a walk
attribute [simp] ExprForm.infer

section Forms

theorem inferAlike_mk {id : ExprId} {span : Span} {form : ExprForm} (h : J.FormsAlike ρ form) :
    J.InferAlike ρ (.mk id span form) := by
  intro w
  rw [Expr.renameVars, Expr.infer, Expr.infer]
  exact (h id span w).bind fun w₁ ty ty' _ hty => walks_record id hty

theorem allInferAlike_cons {e : Expr} {rest : List Expr} (he : J.InferAlike ρ e)
    (hrest : J.AllInferAlike ρ rest) : J.AllInferAlike ρ (e :: rest) := by
  intro w
  rw [renameExprs, inferAll, inferAll]
  refine (he w).bind fun w₁ ty ty' _ hty => ?_
  refine (hrest w₁).bind fun w₂ tys tys' hle htys => ?_
  exact walks_pure (.cons (hty.of_le hle) htys)

theorem elementsAlike_cons {e : Expr} {rest : List Expr} (he : J.InferAlike ρ e)
    (hrest : J.ElementsAlike ρ rest) : J.ElementsAlike ρ (e :: rest) := by
  intro w elem elem' helem
  rw [renameExprs, inferElements, inferElements, Expr.span_renameVars]
  refine (he w).bind fun w₁ ty ty' hle₁ hty => ?_
  refine (walks_equal e.span .arrayElement (helem.of_le hle₁) hty).bind fun w₂ _ _ hle₂ _ => ?_
  exact hrest w₂ elem elem' (helem.of_le (le_trans hle₁ hle₂))

theorem armsAlike_cons {p : Pattern} {body : Expr} {span : Span} {rest : List Arm}
    (hp : J.CheckAlike ρ p) (hbody : J.InferAlike ρ body) (hrest : J.ArmsAlike ρ rest) :
    J.ArmsAlike ρ (.mk p body span :: rest) := by
  intro w scrutinee scrutinee' result result' hscrutinee hresult
  rw [renameArms, inferArms, inferArms, Expr.span_renameVars]
  refine (walks_enterScope w).bind fun w₁ _ _ hle₁ _ => ?_
  refine (hp w₁ _ _ span (hscrutinee.of_le hle₁)).bind fun w₂ _ _ hle₂ _ => ?_
  refine (hbody w₂).bind fun w₃ ty ty' hle₃ hty => ?_
  have hle := le_trans (le_trans hle₁ hle₂) hle₃
  refine (walks_equal body.span .matchArm (hresult.of_le hle) hty).bind fun w₄ _ _ hle₄ _ => ?_
  refine (walks_exitScope w₄).bind fun w₅ _ _ hle₅ _ => ?_
  have hle := le_trans (le_trans hle hle₄) hle₅
  exact hrest w₅ _ _ _ _ (hscrutinee.of_le hle) (hresult.of_le hle)

/-! ### Patterns -/

theorem checkAlike_literal {id : PatternId} {e : Expr} (he : J.InferAlike ρ e) :
    J.CheckAlike ρ (.literal id e) := by
  intro w ty ty' span hty
  rw [Pattern.renameVars, Pattern.check, Pattern.check, Expr.span_renameVars]
  refine (he w).bind fun w₁ t t' hle ht => ?_
  exact walks_equal e.span .pattern (hty.of_le hle) ht

theorem walks_freshVars {α β : Type} {xs : List α} {ys : List β} (hlen : ys.length = xs.length)
    (w : Stores) : J.Walks (xs.mapM fun _ => FindM.freshVar) (ys.mapM fun _ => FindM.freshVar) w
      J.R.AllAlike := by
  induction xs generalizing ys w with
  | nil =>
    rw [List.length_eq_zero_iff.mp hlen]
    exact walks_pure .nil
  | cons x xs ih =>
    cases ys with
    | nil => cases hlen
    | cons y ys =>
      rw [List.mapM_cons, List.mapM_cons]
      refine (walks_freshVar w).bind fun w₁ v v' _ hv => ?_
      refine (ih (Nat.succ.inj hlen) w₁).bind fun w₂ vs vs' hle hvs => ?_
      exact walks_pure (.cons (hv.of_le hle) hvs)

theorem checkAlike_tuple {id : PatternId} {items : List Pattern} (h : J.AllCheckAlike ρ items) :
    J.CheckAlike ρ (.tuple id items) := by
  intro w ty ty' span hty
  rw [Pattern.renameVars, Pattern.check, Pattern.check]
  refine (walks_freshVars (length_renamePatterns items) w).bind fun w₁ vs vs' hle₁ hvs => ?_
  refine (walks_builds (couples_tuple hvs) (builds_tuple vs) (builds_tuple vs')).bind
    fun w₂ t t' hle₂ ht => ?_
  have hle := le_trans hle₁ hle₂
  refine (walks_equal span .pattern (hty.of_le hle) ht).bind fun w₃ _ _ hle₃ _ => ?_
  exact h w₃ _ _ span (AllAlike.of_le hvs (le_trans hle₂ hle₃))

theorem checkAlike_tag {id : PatternId} {name : Name} {items : List Pattern}
    (h : J.AllCheckAlike ρ items) : J.CheckAlike ρ (.tag id name items) := by
  intro w ty ty' span hty
  rw [Pattern.renameVars, Pattern.check, Pattern.check]
  refine walks_query_bind fun hbranches => ?_
  rw [hbranches.declaredProduct?_eq]
  cases hdecl : w.1.declaredProduct? name with
  | none => exact (walks_fault _).bind fun _ _ _ _ _ => walks_pure trivial
  | some d =>
    obtain ⟨params, hd⟩ := hbranches.declares_of_product hdecl
    refine (walks_freshProduct hd).bind fun w₁ p p' hle₁ hp => ?_
    cases hp with
    | none => exact walks_pure trivial
    | some hp =>
      refine (walks_equal span .pattern (hty.of_le hle₁) hp.result).bind fun w₂ _ _ hle₂ _ => ?_
      rw [length_renamePatterns, ← hp.body.fields.length_eq]
      refine walks_check_bind _ fun w₃ hle₃ => ?_
      exact h w₃ _ _ span (AllAlike.of_le hp.body.fields (le_trans hle₂ hle₃))

theorem allCheckAlike_cons {p : Pattern} {rest : List Pattern} (hp : J.CheckAlike ρ p)
    (hrest : J.AllCheckAlike ρ rest) : J.AllCheckAlike ρ (p :: rest) := by
  intro w tys tys' span htys
  rw [renamePatterns]
  cases htys with
  | nil => exact walks_pure trivial
  | cons hty htys =>
    rw [checkAll, checkAll]
    refine (hp w _ _ span hty).bind fun w₁ _ _ hle _ => ?_
    exact hrest w₁ _ _ span (AllAlike.of_le htys hle)

/-! ### The forms of expressions -/

theorem formsAlike_ident {name : Name} (hname : name ∈ J.names) : J.FormsAlike ρ (.ident name) :=
  fun _ span _ => walks_identRule hname span

theorem formsAlike_call {callee : Expr} {args : List Expr} (hcallee : J.InferAlike ρ callee)
    (hargs : J.AllInferAlike ρ args) : J.FormsAlike ρ (.call callee args) := by
  intro id span w
  rw [ExprForm.renameVars, ExprForm.infer, ExprForm.infer, spans_renameExprs, Expr.span_renameVars]
  refine (hcallee w).bind fun w₁ f f' _ hf => ?_
  refine (hargs w₁).bind fun w₂ tys tys' hle htys => ?_
  exact walks_callRule id span callee.span _ (hf.of_le hle) htys

theorem formsAlike_binary {op : BinaryOp} {left right : Expr} (hleft : J.InferAlike ρ left)
    (hright : J.InferAlike ρ right) : J.FormsAlike ρ (.binary op left right) := by
  intro id span w
  rw [ExprForm.renameVars, ExprForm.infer, ExprForm.infer, Expr.span_renameVars, Expr.span_renameVars]
  refine (hleft w).bind fun w₁ l l' _ hl => ?_
  refine (hright w₁).bind fun w₂ r r' hle hr => ?_
  exact walks_binaryRule op span left.span right.span (hl.of_le hle) hr

theorem formsAlike_unary {op : UnaryOp} {operand : Expr} (h : J.InferAlike ρ operand) :
    J.FormsAlike ρ (.unary op operand) := by
  intro id span w
  rw [ExprForm.renameVars, ExprForm.infer, ExprForm.infer, Expr.span_renameVars]
  exact (h w).bind fun w₁ ty ty' _ hty => walks_unaryRule op span operand.span hty

theorem formsAlike_field {receiver : Expr} {name : Name} (h : J.InferAlike ρ receiver) :
    J.FormsAlike ρ (.field receiver name) := by
  intro id span w
  rw [ExprForm.renameVars, ExprForm.infer, ExprForm.infer, Expr.span_renameVars]
  exact (h w).bind fun w₁ ty ty' _ hty => walks_fieldRule name span receiver.span hty

theorem formsAlike_construct {name : Name} {args : List Expr} (h : J.AllInferAlike ρ args) :
    J.FormsAlike ρ (.construct name args) := by
  intro id span w
  rw [ExprForm.renameVars, ExprForm.infer, ExprForm.infer, spans_renameExprs]
  exact (h w).bind fun w₁ tys tys' _ htys => walks_constructRule name span _ htys

theorem formsAlike_tuple {items : List Expr} (h : J.AllInferAlike ρ items) :
    J.FormsAlike ρ (.tuple items) := by
  intro id span w
  rw [ExprForm.renameVars, ExprForm.infer, ExprForm.infer]
  exact (h w).bind fun w₁ tys tys' _ htys =>
    walks_builds (couples_tuple htys) (builds_tuple tys) (builds_tuple tys')

theorem formsAlike_array {items : List Expr} (h : J.ElementsAlike ρ items) :
    J.FormsAlike ρ (.array items) := by
  intro id span w
  rw [ExprForm.renameVars, ExprForm.infer, ExprForm.infer, length_renameExprs]
  refine (walks_freshVar w).bind fun w₁ v v' _ hv => ?_
  refine (h w₁ v v' hv).bind fun w₂ _ _ hle _ => ?_
  exact walks_builds (couples_array (hv.of_le hle) _) (builds_intern _) (builds_intern _)

theorem formsAlike_block {items : List Expr} (h : J.AllInferAlike ρ items) :
    J.FormsAlike ρ (.block items) := by
  intro id span w
  rw [ExprForm.renameVars, ExprForm.infer, ExprForm.infer]
  refine (walks_enterScope w).bind fun w₁ _ _ _ _ => ?_
  refine (h w₁).bind fun w₂ tys tys' _ htys => ?_
  refine (walks_exitScope w₂).bind fun w₃ _ _ hle _ => walks_pure ?_
  -- the last type of a list, or the one in its place if there is none
  have hlast : ∀ {ty ty' : TypeId} {tys tys' : List TypeId}, J.R.Alike w₃ ty ty' →
      J.R.AllAlike w₃ tys tys' → J.R.Alike w₃ (tys.getLastD ty) (tys'.getLastD ty') := by
    intro ty ty' tys tys' hty htys
    induction htys generalizing ty ty' with
    | nil => exact hty
    | cons h _ ih =>
      rw [List.getLastD_cons, List.getLastD_cons]
      exact ih h
  exact hlast (J.R.alike_prim w₃ .unit) (AllAlike.of_le htys hle)

theorem walks_condition {condition : Expr} (h : J.InferAlike ρ condition) (w : Stores)
    {α β : Type} {f : FindM α} {g : FindM β} {P : Stores → α → β → Prop}
    (hrest : ∀ w', w ≤ w' → J.Walks f g w' P) :
    J.Walks
      (do
        let conditionTy ← condition.infer
        equal TypeId.bool conditionTy condition.span .condition
        f)
      (do
        let conditionTy ← (condition.renameVars ρ).infer
        equal TypeId.bool conditionTy condition.span .condition
        g) w P := by
  refine (h w).bind fun w₁ ty ty' hle₁ hty => ?_
  refine (walks_equal condition.span .condition (J.R.alike_prim w₁ .bool) hty).bind
    fun w₂ _ _ hle₂ _ => ?_
  exact hrest w₂ (le_trans hle₁ hle₂)

theorem formsAlike_ifThen {condition thenBranch : Expr} (hcondition : J.InferAlike ρ condition)
    (hthen : J.InferAlike ρ thenBranch) : J.FormsAlike ρ (.ifThen condition thenBranch) := by
  intro id span w
  rw [ExprForm.renameVars, ExprForm.infer, ExprForm.infer, Expr.span_renameVars, Expr.span_renameVars]
  refine walks_condition hcondition w fun w₁ _ => ?_
  refine (hthen w₁).bind fun w₂ t t' _ ht => ?_
  refine (walks_equal thenBranch.span .branch (J.R.alike_prim w₂ .unit) ht).bind fun w₃ _ _ _ _ => ?_
  exact walks_pure (J.R.alike_prim w₃ .unit)

theorem formsAlike_ifElse {condition thenBranch elseBranch : Expr}
    (hcondition : J.InferAlike ρ condition) (hthen : J.InferAlike ρ thenBranch)
    (helse : J.InferAlike ρ elseBranch) :
    J.FormsAlike ρ (.ifElse condition thenBranch elseBranch) := by
  intro id span w
  rw [ExprForm.renameVars, ExprForm.infer, ExprForm.infer, Expr.span_renameVars, Expr.span_renameVars]
  refine walks_condition hcondition w fun w₁ _ => ?_
  refine (hthen w₁).bind fun w₂ t t' _ ht => ?_
  refine (helse w₂).bind fun w₃ e e' hle₃ he => ?_
  refine (walks_equal elseBranch.span .branch (ht.of_le hle₃) he).bind fun w₄ _ _ hle₄ _ => ?_
  exact walks_pure (ht.of_le (le_trans hle₃ hle₄))

theorem formsAlike_select {scrutinee : Expr} {arms : List Arm} (hscrutinee : J.InferAlike ρ scrutinee)
    (harms : J.ArmsAlike ρ arms) : J.FormsAlike ρ (.select scrutinee arms) := by
  intro id span w
  rw [ExprForm.renameVars, ExprForm.infer, ExprForm.infer, patterns_renameArms]
  refine (hscrutinee w).bind fun w₁ s s' _ hs => ?_
  refine (walks_freshVar w₁).bind fun w₂ v v' hle₂ hv => ?_
  refine (harms w₂ s s' v v' (hs.of_le hle₂) hv).bind fun w₃ _ _ hle₃ _ => ?_
  refine (walks_coverageRule _ span).bind fun w₄ _ _ hle₄ _ => ?_
  exact walks_pure (hv.of_le (le_trans hle₃ hle₄))

theorem formsAlike_loop {condition body : Expr} (hcondition : J.InferAlike ρ condition)
    (hbody : J.InferAlike ρ body) : J.FormsAlike ρ (.loop condition body) := by
  intro id span w
  rw [ExprForm.renameVars, ExprForm.infer, ExprForm.infer, Expr.span_renameVars]
  refine walks_condition hcondition w fun w₁ _ => ?_
  exact (hbody w₁).bind fun w₂ _ _ _ _ => walks_pure (J.R.alike_prim w₂ .unit)

theorem formsAlike_define {name : Name} {written : Option TypeExpr} {init : Expr}
    (hwritten : ∀ t ∈ written, J.R.Follows ρ t) (hinit : J.InferAlike ρ init) :
    J.FormsAlike ρ (.define name written init) := by
  intro id span w
  rw [ExprForm.renameVars, ExprForm.infer, ExprForm.infer, Expr.span_renameVars]
  refine (hinit w).bind fun w₁ i i' _ hi => ?_
  cases written with
  | none =>
    exact (walks_bindName name hi).bind fun w₂ _ _ _ _ => walks_pure (J.R.alike_prim w₂ .unit)
  | some t =>
    refine (walks_writtenRule (hwritten t rfl) span).bind fun w₂ ty ty' hle₂ hty => ?_
    refine (walks_equal init.span .ascription hty (hi.of_le hle₂)).bind fun w₃ _ _ hle₃ _ => ?_
    exact (walks_bindName name (hty.of_le hle₃)).bind fun w₄ _ _ _ _ =>
      walks_pure (J.R.alike_prim w₄ .unit)

theorem formsAlike_assign {target value : Expr} (htarget : J.InferAlike ρ target)
    (hvalue : J.InferAlike ρ value) : J.FormsAlike ρ (.assign target value) := by
  intro id span w
  rw [ExprForm.renameVars, ExprForm.infer, ExprForm.infer]
  refine (htarget w).bind fun w₁ t t' _ ht => ?_
  refine (hvalue w₁).bind fun w₂ v v' hle hv => ?_
  exact (walks_equal span .assign (ht.of_le hle) hv).bind fun w₃ _ _ _ _ =>
    walks_pure (J.R.alike_prim w₃ .unit)

theorem formsAlike_ascribe {e : Expr} {written : TypeExpr} (hwritten : J.R.Follows ρ written)
    (he : J.InferAlike ρ e) : J.FormsAlike ρ (.ascribe e written) := by
  intro id span w
  rw [ExprForm.renameVars, ExprForm.infer, ExprForm.infer]
  refine (he w).bind fun w₁ t t' _ ht => ?_
  refine (walks_writtenRule hwritten span).bind fun w₂ ty ty' hle₂ hty => ?_
  refine (walks_equal span .ascription hty (ht.of_le hle₂)).bind fun w₃ _ _ hle₃ _ => ?_
  exact walks_pure (hty.of_le hle₃)

theorem formsAlike_lambda {params : List Param} {body : Expr}
    (hparams : ∀ p ∈ params, ∀ t ∈ p.written, J.R.Follows ρ t) (hbody : J.InferAlike ρ body) :
    J.FormsAlike ρ (.lambda params body) := by
  intro id span w
  rw [ExprForm.renameVars, ExprForm.infer, ExprForm.infer]
  refine (walks_enterScope w).bind fun w₁ _ _ _ _ => ?_
  refine (walks_paramsRule hparams).bind fun w₂ ps ps' _ hps => ?_
  refine (hbody w₂).bind fun w₃ b b' hle₃ hb => ?_
  refine (walks_exitScope w₃).bind fun w₄ _ _ hle₄ _ => ?_
  have hsig : J.R.AlikeSig w₄ { ret := b, params := ps } { ret := b', params := ps' } :=
    ⟨hb.of_le hle₄, AllAlike.of_le hps (le_trans hle₃ hle₄), .nil, rfl, rfl⟩
  exact walks_builds (couples_function hsig) (builds_intern _) (builds_intern _)

end Forms

/-! ## Trees -/

section Tree

mutual

/-- An expression is walked in step with the renamed one. -/
theorem inferAlike : (e : Expr) → J.Fits ρ e.walk → J.InferAlike ρ e
  | .mk _ _ form, h => inferAlike_mk (formsAlike form h)

theorem formsAlike {id : ExprId} {span : Span} : (form : ExprForm) →
    J.Fits ρ (.expr (.mk id span form) :: form.walkParts) → J.FormsAlike ρ form
  | .int _ suffix, _ => fun _ span _ => walks_intRule suffix span
  | .float _ suffix, _ => fun _ span _ => walks_floatRule suffix span
  | .bool _, _ => fun _ _ w => walks_pure (J.R.alike_prim w .bool)
  | .char _, _ => fun _ _ w => walks_pure (J.R.alike_prim w .c8)
  | .string _, _ => fun _ _ w =>
    walks_builds (couples_pointer (J.R.alike_prim w .c8)) (builds_intern _) (builds_intern _)
  | .unit, _ => fun _ _ w => walks_pure (J.R.alike_prim w .unit)
  | .ident name, h => formsAlike_ident (h.head.2 name rfl)
  | .call callee args, h =>
    formsAlike_call (inferAlike callee h.tail.left) (allInferAlike args h.tail.right)
  | .binary _ left right, h =>
    formsAlike_binary (inferAlike left h.tail.left) (inferAlike right h.tail.right)
  | .unary _ operand, h => formsAlike_unary (inferAlike operand h.tail)
  | .field receiver _, h => formsAlike_field (inferAlike receiver h.tail)
  | .construct _ args, h => formsAlike_construct (allInferAlike args h.tail)
  | .tuple items, h => formsAlike_tuple (allInferAlike items h.tail)
  | .array items, h => formsAlike_array (elementsAlike items h.tail)
  | .block items, h => formsAlike_block (allInferAlike items h.tail)
  | .ifThen condition thenBranch, h =>
    formsAlike_ifThen (inferAlike condition h.tail.left) (inferAlike thenBranch h.tail.right)
  | .ifElse condition thenBranch elseBranch, h =>
    formsAlike_ifElse (inferAlike condition h.tail.left.left)
      (inferAlike thenBranch h.tail.left.right) (inferAlike elseBranch h.tail.right)
  | .select scrutinee arms, h =>
    formsAlike_select (inferAlike scrutinee h.tail.left) (armsAlike arms h.tail.right)
  | .loop condition body, h =>
    formsAlike_loop (inferAlike condition h.tail.left) (inferAlike body h.tail.right)
  | .define _ _ init, h =>
    formsAlike_define (fun t ht => h.head.1 t (Option.mem_toList.mpr ht)) (inferAlike init h.tail)
  | .assign target value, h =>
    formsAlike_assign (inferAlike target h.tail.left) (inferAlike value h.tail.right)
  | .ascribe e written, h =>
    formsAlike_ascribe (h.head.1 written List.mem_cons_self) (inferAlike e h.tail)
  | .lambda _ body, h =>
    formsAlike_lambda
      (fun p hp t ht => (h.tail.left (.param p) (List.mem_map_of_mem hp)).1 t (Option.mem_toList.mpr ht))
      (inferAlike body h.tail.right)

theorem allInferAlike : (es : List Expr) → J.Fits ρ (walkExprs es) → J.AllInferAlike ρ es
  | [], _ => fun _ => walks_pure .nil
  | e :: rest, h => allInferAlike_cons (inferAlike e h.left) (allInferAlike rest h.right)

theorem elementsAlike : (es : List Expr) → J.Fits ρ (walkExprs es) → J.ElementsAlike ρ es
  | [], _ => fun _ _ _ _ => walks_pure trivial
  | e :: rest, h => elementsAlike_cons (inferAlike e h.left) (elementsAlike rest h.right)

theorem armsAlike : (arms : List Arm) → J.Fits ρ (walkArms arms) → J.ArmsAlike ρ arms
  | [], _ => fun _ _ _ _ _ _ _ => walks_pure trivial
  | .mk pattern body _ :: rest, h =>
    armsAlike_cons (checkAlike pattern h.tail.left.left) (inferAlike body h.tail.left.right)
      (armsAlike rest h.tail.right)

theorem checkAlike : (p : Pattern) → J.Fits ρ p.walk → J.CheckAlike ρ p
  | .wildcard _, _ => fun _ _ _ _ _ => walks_pure trivial
  | .binding _ name, _ => fun _ _ _ _ hty => walks_bindName name hty
  | .literal _ e, h => checkAlike_literal (inferAlike e h.tail)
  | .tuple _ items, h => checkAlike_tuple (allCheckAlike items h.tail)
  | .tag _ _ items, h => checkAlike_tag (allCheckAlike items h.tail)

theorem allCheckAlike : (ps : List Pattern) → J.Fits ρ (walkPatterns ps) → J.AllCheckAlike ρ ps
  | [], _ => fun _ _ _ _ _ => walks_pure trivial
  | p :: rest, h => allCheckAlike_cons (checkAlike p h.left) (allCheckAlike rest h.right)

end

end Tree

/-! ## Groups of functions -/

/-- A function with its provisional type, beside the renamed one with a type that is alike. -/
def AlikeMember (J : SideBySide) (w : Stores) (member member' : FunctionDecl × TypeId) : Prop :=
  (∃ ρ, J.Fits ρ member.1.walk ∧ member'.1 = member.1.renameVars ρ) ∧ J.R.Alike w member.2 member'.2

theorem stable_alikeMember (J : SideBySide) : Stable (AlikeMember J) :=
  fun _ _ _ _ hle h => ⟨h.1, h.2.of_le hle⟩

theorem walks_functionRule {f : FunctionDecl} {ty ty' : TypeId} (hf : J.Fits ρ f.walk)
    (hty : J.R.Alike w ty ty') :
    J.Walks (functionRule f ty) (functionRule (f.renameVars ρ) ty') w fun _ _ _ => True := by
  unfold functionRule
  refine walks_query_bind fun _ => ?_
  cases hsig : w.1.signature? ty with
  | none =>
    rw [hty.signature?_none hsig]
    exact walks_pure trivial
  | some sig =>
    obtain ⟨sig', hsig', halike⟩ := hty.signature?_some hsig
    rw [hsig']
    have hbody : (f.renameVars ρ).body = f.body.map (Expr.renameVars ρ) := rfl
    rw [hbody]
    cases hb : f.body with
    | none => exact walks_pure trivial
    | some body =>
      rw [Option.map_some]
      dsimp only
      rw [Expr.span_renameVars]
      refine (walks_enterScope w).bind fun w₁ _ _ hle₁ _ => ?_
      have hparams : List.Forall₂
          (fun p q : Param × TypeId => q.1.name = p.1.name ∧ J.R.Alike w₁ p.2 q.2)
          (f.params.zip sig.params) ((f.renameVars ρ).params.zip sig'.params) := by
        have hnames : List.Forall₂ (fun p q : Param => q.name = p.name) f.params
            (f.renameVars ρ).params :=
          List.forall₂_map_right_iff.mpr (List.forall₂_same.mpr fun _ _ => rfl)
        exact rel_zip hnames (AllAlike.of_le halike.params hle₁)
      refine (walks_forM (r := fun w (p q : Param × TypeId) =>
          q.1.name = p.1.name ∧ J.R.Alike w p.2 q.2)
        (fun _ _ _ _ hle h => ⟨h.1, h.2.of_le hle⟩) ?_ hparams).bind fun w₂ _ _ hle₂ _ => ?_
      · rintro w' ⟨p, ty⟩ ⟨q, ty'⟩ - ⟨hname, hty⟩
        dsimp only at hname ⊢
        rw [hname]
        exact walks_bindName p.name hty
      have hwalk : J.Fits ρ body.walk := by
        rw [FunctionDecl.walk, hb] at hf
        exact hf.right
      refine (inferAlike body hwalk w₂).bind fun w₃ b b' hle₃ hb => ?_
      refine (walks_equal body.span .body
        (halike.ret.of_le (le_trans (le_trans hle₁ hle₂) hle₃)) hb).bind fun w₄ _ _ _ _ => ?_
      exact walks_exitScope w₄

/-- The bodies of a group are walked in step. -/
theorem walks_findGroup {members members' : List (FunctionDecl × TypeId)}
    (h : List.Forall₂ (AlikeMember J w) members members') :
    J.Walks (FindM.findGroup members) (FindM.findGroup members') w fun _ _ _ => True := by
  refine walks_forM (stable_alikeMember J) ?_ h
  rintro w' ⟨f, ty⟩ ⟨_, ty'⟩ - ⟨⟨ρ, hf, rfl⟩, hty⟩
  exact walks_functionRule hf hty

end SideBySide

end ConstraintTyping
