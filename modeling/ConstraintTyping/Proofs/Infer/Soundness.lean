import ConstraintTyping.Proofs.Infer.Constraints

/-!
# Solved constraints type the tree

When the equations that a walk found are solved, the types on record type the tree: every rule of the
declarative judgement holds with compatible types.  The only rule that needs more than its own
equations is the one of an overloaded operator.  Its operands agree with a common variable, and as
agreement is not transitive, it takes the order of solving to see that they agree with each other:
the variable is new when it is first equated, so it becomes the left operand.
-/

namespace ConstraintTyping

open TypeTree

/-- A typing in which everything found is solved. -/
structure Typing.Solves (J : Typing) (W : Surroundings) (total : Found) : Prop where
  declarations : J.declarations = W.declarations
  agrees : J.Agrees = Compatible
  callsMeta : J.callsMeta = true
  equations : ∀ p ∈ total.equations, Compatible (p.1.subst J.vars) (p.2.subst J.vars)
  /-- A variable becomes the first type that it is equated with. -/
  pinned : ∀ {pre post : List (TypeTree × TypeTree)} {x : VarIdent} {l : TypeTree},
    total.equations = pre ++ (var x, l) :: post →
    (∀ p ∈ pre, ¬ p.1.Occurs x ∧ ¬ p.2.Occurs x) → ¬ l.Occurs x →
      J.vars x = l.subst J.vars ∨ l.subst J.vars = error
  records : ∀ r ∈ total.records, J.exprType r.1 = r.2.subst J.vars
  general : ∀ {name : Name} {g : TypeTree} (φ : VarIdent → TypeTree),
    W.names name = some ⟨g, true⟩ → J.Uses name (g.subst φ)
  fixed : ∀ {name : Name} {g : TypeTree},
    W.names name = some ⟨g, false⟩ → J.Uses name (g.subst J.vars)

theorem LiteralHas.subst_eq {form : ExprForm} {t : TypeTree} (h : LiteralHas form t)
    (σ : VarIdent → TypeTree) : t.subst σ = t := by
  cases h with
  | string => rw [subst_mk rfl]; simp only [Shape.map, subst_prim]
  | _ => exact subst_prim σ _

namespace Env

theorem lookup_subst (σ : VarIdent → TypeTree) (Γ : Env) (name : Name) :
    (Γ.subst σ).lookup name = (Γ.lookup name).map (TypeTree.subst σ) := by
  induction Γ with
  | nil => rfl
  | cons b Γ ih =>
    rw [Env.subst, List.map_cons, List.lookup_cons, List.lookup_cons]
    split
    · rfl
    · exact ih

theorem subst_bindParams (σ : VarIdent → TypeTree) (Γ : Env) (params : List Param)
    (ts : List TypeTree) :
    (Γ.bindParams params ts).subst σ = (Γ.subst σ).bindParams params (ts.map (TypeTree.subst σ)) := by
  rw [Env.subst, bindParams, bindParams, List.map_append, List.map_reverse, List.zip_map_right]
  rfl

end Env

namespace Typing.Solves

variable {J : Typing} {W : Surroundings} {total S S' : Found} {Γ Δ : Env}

theorem ask (hJ : J.Solves W total) {l r : TypeTree} (h : (S.ask l r).Grows total) :
    J.Agrees (l.subst J.vars) (r.subst J.vars) := by
  rw [hJ.agrees]
  exact hJ.equations _ (Found.mem_ask_of_grows h)

/-- Both operands of an overloaded operator are asked to be the operator's variable, which is new.
So they agree with each other. -/
theorem operands (hJ : J.Solves W total) {l r : TypeTree} {x : VarIdent} (hclosed : S.Closed)
    (hl : l.Over S.vars) (hx : S.Introduces S' [x])
    (h : ((S'.ask (var x) l).ask (var x) r).Grows total) :
    J.Agrees (l.subst J.vars) (r.subst J.vars) := by
  have hnew := hx.notMem x (List.mem_singleton_self x)
  have hr := hJ.ask h
  rw [hJ.agrees, subst_var] at hr
  rw [hJ.agrees]
  obtain ⟨post, hpost⟩ := h.equations
  have htotal : total.equations = S.equations ++ (var x, l) :: ((var x, r) :: post) := by
    rw [← hpost]
    simp [Found.ask, hx.equations]
  rcases hJ.pinned htotal (fun p hp => ⟨fun ho => hnew ((hclosed.equations p hp).1 x ho),
    fun ho => hnew ((hclosed.equations p hp).2 x ho)⟩) (fun ho => hnew (hl x ho)) with hpin | herror
  · rw [← hpin]
    exact hr
  · rw [herror]
    exact .errorLeft _

theorem writes (hJ : J.Solves W total) {w : TypeExpr} {t : TypeTree}
    (h : S.Writes S' W.declarations w t) : J.Denotes w (t.subst J.vars) := by
  unfold Typing.Denotes
  rw [hJ.declarations]
  exact h.denotes.read J.vars

theorem opens (hJ : J.Solves W total) {name : Name} {p : ProductDecl} {xs : List VarIdent}
    (h : S.Opens S' W.declarations name p xs) :
    J.ProductAt name p (xs.map J.vars) ((p.openFields xs).map (subst J.vars)) where
  declared := by rw [hJ.declarations]; exact h.declared
  length_args := by rw [List.length_map, h.length_eq]
  fields := by
    rw [ProductDecl.openFields, p.fieldsAt_subst, List.map_map]
    simp only [Function.comp_def, subst_var]

theorem map_var_subst (σ : VarIdent → TypeTree) (xs : List VarIdent) :
    (xs.map var).map (subst σ) = xs.map σ := by
  rw [List.map_map]
  exact List.map_congr_left fun x _ => subst_var σ x

theorem params (hJ : J.Solves W total) {ps : List Param} {ts : List TypeTree}
    (h : ParamsFind W.declarations S ps ts S') :
    List.Forall₂ J.ParamAt ps (ts.map (subst J.vars)) := by
  induction h with
  | nil => exact .nil
  | written hp ht _ ih =>
    refine .cons (fun w hw => ?_) ih
    rw [hp] at hw
    exact Option.some.inj hw ▸ hJ.writes ht
  | plain hp _ _ ih =>
    refine .cons (fun w hw => ?_) ih
    rw [hp] at hw
    cases hw

end Typing.Solves

/-- Arguments that fit the parameters and a result that fits make a call fit a function type. -/
theorem compatible_function {sig : Signature TypeTree} {args : List TypeTree} {ret : TypeTree}
    (hlen : args.length = sig.params.length ∨ sig.isVariadic = true)
    (hparams : ∀ p ∈ sig.params.zip args, Compatible p.1 p.2) (hret : Compatible sig.ret ret) :
    Compatible (.mk (.function sig))
      (.mk (.function { ret, params := args, isMeta := sig.isMeta })) := by
  refine .parts ⟨rfl, ?_⟩ ?_
  · exact hlen.elim (fun h => .inl h.symm) fun h => .inr (.inl h)
  · intro p hp
    rcases List.mem_append.mp hp with hp | hp
    · exact hparams p hp
    · rw [List.mem_singleton] at hp
      rw [hp]
      exact hret

theorem CallFinds.sound {J : Typing} {W : Surroundings} {total S S' : Found} {id : ExprId}
    {f t : TypeTree} {ts : List TypeTree} (hJ : J.Solves W total) (h : CallFinds id S f ts t S')
    (hle : S'.Grows total) :
    ∃ isMeta, J.Agrees (f.subst J.vars) (.mk (.function
      { ret := t.subst J.vars, params := ts.map (subst J.vars), isMeta })) := by
  cases h with
  | unknown _ hx =>
    refine ⟨false, ?_⟩
    have hask := hJ.ask hle
    rw [subst_mk rfl] at hask
    exact hask
  | @known S₁ S₂ sig _ x hfits hsite hx =>
    refine ⟨sig.isMeta, ?_⟩
    have hret := (hJ.ask hle)
    rw [hJ.agrees] at hret ⊢
    rw [subst_mk rfl]
    refine @compatible_function (sig.map (subst J.vars)) _ _ ?_ ?_ hret.symm
    · simpa [Signature.map] using hfits
    · intro p hp
      have hzip : (sig.map (subst J.vars)).params.zip (ts.map (subst J.vars)) =
          (sig.params.zip ts).map (Prod.map (subst J.vars) (subst J.vars)) := List.zip_map
      rw [hzip] at hp
      obtain ⟨q, hq, rfl⟩ := List.mem_map.mp hp
      have hle₁ : S₁.Grows total := (hx.toWidens.grows.trans (Found.grows_ask ..)).trans hle
      refine hJ.equations q (hle₁.equations.subset ?_)
      rw [hsite]
      split <;> exact List.mem_append_right _ hq

/-! ## Forms -/

/-- An expression is walked, and it has the type that was found for it if all that was found is
solved. -/
structure Typing.Confirms (J : Typing) (W : Surroundings) (total S : Found) (Γ : Env) (e : Expr)
    (t : TypeTree) (S' : Found) (Δ : Env) : Prop where
  finds : Finds W S Γ e t S' Δ
  sound : S'.Grows total → HasType J (Γ.subst J.vars) e (t.subst J.vars) (Δ.subst J.vars)

/-- Expressions are walked, and they have the types that were found for them if all that was found is
solved. -/
structure Typing.ConfirmsAll (J : Typing) (W : Surroundings) (total S : Found) (Γ : Env)
    (es : List Expr) (ts : List TypeTree) (S' : Found) (Δ : Env) : Prop where
  find : AllFind W S Γ es ts S' Δ
  sound : S'.Grows total →
    AllHaveType J (Γ.subst J.vars) es (ts.map (subst J.vars)) (Δ.subst J.vars)

/-- An expression of some form has the type that is found for it if all that is found is solved. -/
def Typing.ConfirmsForm (J : Typing) (total : Found) (Γ : Env) (form : ExprForm) (t : TypeTree)
    (S' : Found) (Δ : Env) : Prop :=
  S'.Grows total → FormHasType J (Γ.subst J.vars) form (t.subst J.vars) (Δ.subst J.vars)

namespace Typing

variable {J : Typing} {W : Surroundings} {total S S₁ S₂ S₃ S' : Found} {Γ Γ₁ Γ₂ Δ : Env}
  {form : ExprForm} {name : Name} {p : ProductDecl} {xs : List VarIdent} {x : VarIdent}
  {f t u l r c : TypeTree} {ts : List TypeTree} {es : List Expr} {op : BinaryOp}
  {callee operand left right receiver condition thenBranch elseBranch body init target value
    expr : Expr} {written : TypeExpr}

theorem confirms_literal (h : LiteralHas form t) : J.ConfirmsForm total Γ form t S Γ := by
  intro _
  rw [h.subst_eq]
  exact .literal h

theorem confirms_localName (h : Γ.lookup name = some t) :
    J.ConfirmsForm total Γ (.ident name) t S Γ :=
  fun _ => .localName (by rw [Env.lookup_subst, h]; rfl)

theorem confirms_addressOf (hoperand : J.Confirms W total S Γ operand u S₁ Δ) :
    J.ConfirmsForm total Γ (.unary .addressOf operand) (.mk (.pointer u)) S₁ Δ := by
  intro hle
  rw [subst_mk rfl]
  exact .addressOf (hoperand.sound hle)

theorem confirms_tuple (hitems : J.ConfirmsAll W total S Γ es ts S' Δ) :
    J.ConfirmsForm total Γ (.tuple es) (TypeTree.tuple ts) S' Δ := by
  intro hle
  rw [subst_tuple]
  exact .tuple (hitems.sound hle)

theorem confirms_block (hitems : J.ConfirmsAll W total S Γ es ts S' Δ) :
    J.ConfirmsForm total Γ (.block es) (ts.getLastD (prim .unit)) S' Γ := by
  intro hle
  have hlast : (ts.getLastD (prim .unit)).subst J.vars =
      (ts.map (subst J.vars)).getLastD (prim .unit) := by
    conv_rhs => rw [← subst_prim J.vars .unit, List.getLastD_map]
  rw [hlast]
  exact .block (hitems.sound hle)

theorem confirms_define (hinit : J.Confirms W total S Γ init t S' Δ) :
    J.ConfirmsForm total Γ (.define name none init) (prim .unit) S' ((name, t) :: Δ) := by
  intro hle
  rw [subst_prim]
  exact .define (hinit.sound hle)

variable (hJ : J.Solves W total)
include hJ

/-- A copy of a general type is one of its instances. -/
theorem confirms_generalName {g : TypeTree} (h : Γ.lookup name = none)
    (hname : W.names name = some ⟨g, true⟩) (ht : S.Copies S' g t) :
    J.ConfirmsForm total Γ (.ident name) t S' Γ := by
  intro _
  obtain ⟨ρ, -, rfl⟩ := ht.renames
  rw [subst_subst]
  exact .globalName (by rw [Env.lookup_subst, h]; rfl) (hJ.general _ hname)

theorem confirms_fixedName (h : Γ.lookup name = none) (hname : W.names name = some ⟨t, false⟩) :
    J.ConfirmsForm total Γ (.ident name) t S Γ :=
  fun _ => .globalName (by rw [Env.lookup_subst, h]; rfl) (hJ.fixed hname)

theorem confirms_call {id : ExprId} (hcallee : J.Confirms W total S Γ callee f S₁ Γ₁)
    (hargs : J.ConfirmsAll W total S₁ Γ₁ es ts S₂ Δ) (hcall : CallFinds id S₂ f ts t S') :
    J.ConfirmsForm total Γ (.call callee es) t S' Δ := by
  intro hle
  obtain ⟨isMeta, hagrees⟩ := hcall.sound hJ hle
  have hle₂ := hcall.grows.trans hle
  exact .call (hcallee.sound (hargs.find.grows.trans hle₂)) (hargs.sound hle₂)
    (fun _ => hJ.callsMeta) hagrees

theorem confirms_logical (hop : op.traitName? = none) (hleft : J.Confirms W total S Γ left l S₁ Γ₁)
    (hright : J.Confirms W total S₁ Γ₁ right r S₂ Δ) :
    J.ConfirmsForm total Γ (.binary op left right) (prim .bool)
      ((S₂.ask (prim .bool) l).ask (prim .bool) r) Δ := by
  intro hle
  have hle₁ := (Found.grows_ask ..).trans hle
  have hle₂ := (Found.grows_ask ..).trans hle₁
  rw [subst_prim]
  refine .logical hop (hleft.sound (hright.finds.grows.trans hle₂)) (hright.sound hle₂) ?_ ?_
  · simpa using hJ.ask hle₁
  · simpa using hJ.ask hle

theorem confirms_overloaded (hop : op.traitName?.isSome = true)
    (hleft : J.Confirms W total S Γ left l S₁ Γ₁) (hright : J.Confirms W total S₁ Γ₁ right r S₂ Δ)
    (hx : S₂.Introduces S₃ [x]) :
    J.ConfirmsForm total Γ (.binary op left right) (if op.isComparison then prim .bool else var x)
      ((S₃.ask (var x) l).ask (var x) r) Δ := by
  intro hle
  have hle₁ := (Found.grows_ask ..).trans hle
  have hle₂ := hx.toWidens.grows.trans ((Found.grows_ask ..).trans hle₁)
  have hrightGrows := hright.finds.grows
  have hleftType := hleft.sound (hrightGrows.trans hle₂)
  have hrightType := hright.sound hle₂
  have hagrees := hJ.operands hright.finds.reaches.closed
    (hleft.finds.reaches.typeOver.mono hrightGrows.vars) hx hle
  cases hcmp : op.isComparison with
  | true =>
    rw [if_pos rfl, subst_prim]
    exact .comparison hcmp hleftType hrightType hagrees
  | false =>
    rw [if_neg Bool.false_ne_true]
    exact .arithmetic hop hcmp hleftType hrightType hagrees (hJ.ask hle₁) (hJ.ask hle)

theorem confirms_neg (hoperand : J.Confirms W total S Γ operand u S₁ Δ)
    (hx : S₁.Introduces S₂ [x]) :
    J.ConfirmsForm total Γ (.unary .neg operand) (var x) (S₂.ask (var x) u) Δ := by
  intro hle
  have hle₁ := hx.toWidens.grows.trans ((Found.grows_ask ..).trans hle)
  exact .neg (hoperand.sound hle₁) (hJ.ask hle)

theorem confirms_not (hoperand : J.Confirms W total S Γ operand u S₁ Δ) :
    J.ConfirmsForm total Γ (.unary .not operand) (prim .bool) (S₁.ask (prim .bool) u) Δ := by
  intro hle
  rw [subst_prim]
  refine .not (hoperand.sound ((Found.grows_ask ..).trans hle)) ?_
  simpa using hJ.ask hle

theorem confirms_deref (hoperand : J.Confirms W total S Γ operand u S₁ Δ)
    (hx : S₁.Introduces S₂ [x]) :
    J.ConfirmsForm total Γ (.unary .deref operand) (var x)
      (S₂.ask (.mk (.pointer (var x))) u) Δ := by
  intro hle
  have hle₁ := hx.toWidens.grows.trans ((Found.grows_ask ..).trans hle)
  have hask := hJ.ask hle
  rw [subst_mk rfl] at hask
  exact .deref (hoperand.sound hle₁) hask

/-- The field of a product that was opened at variables is the one of the solved arguments. -/
theorem confirms_field {field product : Name} {index : Nat}
    (hreceiver : J.Confirms W total S Γ receiver r S₁ Δ)
    (hopens : S₁.Opens S₂ W.declarations product p xs)
    (hfield : p.fieldNames.idxOf? (some field) = some index)
    (ht : (p.openFields xs)[index]? = some t) :
    J.ConfirmsForm total Γ (.field receiver field) t
      (S₂.ask (.mk (.product product (xs.map var))) r) Δ := by
  intro hle
  have hle₁ := hopens.toWidens.grows.trans ((Found.grows_ask ..).trans hle)
  have hask := hJ.ask hle
  rw [subst_mk rfl] at hask
  simp only [Shape.map, Solves.map_var_subst] at hask
  refine .field (hreceiver.sound hle₁) (hJ.opens hopens) hfield ?_ hask
  rw [List.getElem?_map, ht]
  rfl

theorem confirms_construct (hitems : J.ConfirmsAll W total S Γ es ts S₁ Δ)
    (hopens : S₁.Opens S₂ W.declarations name p xs)
    (hlen : (p.openFields xs).length = ts.length) :
    J.ConfirmsForm total Γ (.construct name es) (p.result name (xs.map var))
      (S₂.askAll ((p.openFields xs).zip ts)) Δ := by
  intro hle
  have hle₁ := hopens.toWidens.grows.trans ((Found.grows_askAll ..).trans hle)
  rw [ProductDecl.result_subst, Solves.map_var_subst]
  refine .construct (hitems.sound hle₁) (hJ.opens hopens) ?_
  rw [List.forall₂_map_left_iff, List.forall₂_map_right_iff, List.forall₂_iff_zip, hJ.agrees]
  exact ⟨hlen, fun {_ _} hp => hJ.equations _ (Found.mem_askAll_of_grows hle hp)⟩

theorem confirms_ifThen (hcondition : J.Confirms W total S Γ condition c S₁ Γ₁)
    (hthen : J.Confirms W total (S₁.ask (prim .bool) c) Γ₁ thenBranch t S₂ Δ) :
    J.ConfirmsForm total Γ (.ifThen condition thenBranch) (prim .unit) (S₂.ask (prim .unit) t)
      Δ := by
  intro hle
  have hle₂ := (Found.grows_ask ..).trans hle
  have hle₁ := hthen.finds.grows.trans hle₂
  rw [subst_prim]
  refine .ifThen (hcondition.sound ((Found.grows_ask ..).trans hle₁)) (hthen.sound hle₂) ?_ ?_
  · simpa using hJ.ask hle₁
  · simpa using hJ.ask hle

theorem confirms_ifElse (hcondition : J.Confirms W total S Γ condition c S₁ Γ₁)
    (hthen : J.Confirms W total (S₁.ask (prim .bool) c) Γ₁ thenBranch t S₂ Γ₂)
    (helse : J.Confirms W total S₂ Γ₂ elseBranch u S₃ Δ) :
    J.ConfirmsForm total Γ (.ifElse condition thenBranch elseBranch) t (S₃.ask t u) Δ := by
  intro hle
  have hle₃ := (Found.grows_ask ..).trans hle
  have hle₂ := helse.finds.grows.trans hle₃
  have hle₁ := hthen.finds.grows.trans hle₂
  refine .ifElse (hcondition.sound ((Found.grows_ask ..).trans hle₁)) (hthen.sound hle₂)
    (helse.sound hle₃) ?_ (hJ.ask hle)
  simpa using hJ.ask hle₁

theorem confirms_loop (hcondition : J.Confirms W total S Γ condition c S₁ Γ₁)
    (hbody : J.Confirms W total (S₁.ask (prim .bool) c) Γ₁ body t S' Δ) :
    J.ConfirmsForm total Γ (.loop condition body) (prim .unit) S' Δ := by
  intro hle
  have hle₁ := hbody.finds.grows.trans hle
  rw [subst_prim]
  refine .loop (hcondition.sound ((Found.grows_ask ..).trans hle₁)) (hbody.sound hle) ?_
  simpa using hJ.ask hle₁

theorem confirms_defineAs (hinit : J.Confirms W total S Γ init u S₁ Δ)
    (hwritten : S₁.Writes S₂ W.declarations written t) :
    J.ConfirmsForm total Γ (.define name (some written) init) (prim .unit) (S₂.ask t u)
      ((name, t) :: Δ) := by
  intro hle
  have hle₁ := hwritten.toWidens.grows.trans ((Found.grows_ask ..).trans hle)
  rw [subst_prim]
  exact .defineAs (hinit.sound hle₁) (hJ.writes hwritten) (hJ.ask hle)

theorem confirms_assign (htarget : J.Confirms W total S Γ target t S₁ Γ₁)
    (hvalue : J.Confirms W total S₁ Γ₁ value u S₂ Δ) :
    J.ConfirmsForm total Γ (.assign target value) (prim .unit) (S₂.ask t u) Δ := by
  intro hle
  have hle₂ := (Found.grows_ask ..).trans hle
  rw [subst_prim]
  exact .assign (htarget.sound (hvalue.finds.grows.trans hle₂)) (hvalue.sound hle₂) (hJ.ask hle)

theorem confirms_ascribe (hexpr : J.Confirms W total S Γ expr u S₁ Δ)
    (hwritten : S₁.Writes S₂ W.declarations written t) :
    J.ConfirmsForm total Γ (.ascribe expr written) t (S₂.ask t u) Δ := by
  intro hle
  have hle₁ := hwritten.toWidens.grows.trans ((Found.grows_ask ..).trans hle)
  exact .ascribe (hexpr.sound hle₁) (hJ.writes hwritten) (hJ.ask hle)

theorem confirms_lambda {params : List Param} (hparams : ParamsFind W.declarations S params ts S₁)
    (hbody : J.Confirms W total S₁ (Γ.bindParams params ts) body t S' Δ) :
    J.ConfirmsForm total Γ (.lambda params body) (.mk (.function { ret := t, params := ts })) S'
      Γ := by
  intro hle
  have htype := hbody.sound hle
  rw [Env.subst_bindParams] at htype
  rw [subst_mk rfl]
  exact .lambda (hJ.params hparams) htype

end Typing

/-! ## Walks -/

section Sound

open Typing

variable {J : Typing} {W : Surroundings} {total : Found}

mutual

/-- An expression has the type that was found for it. -/
theorem Finds.confirms (hJ : J.Solves W total) {S S' : Found} {Γ Δ : Env} {e : Expr} {t : TypeTree}
    (h : Finds W S Γ e t S' Δ) : J.Confirms W total S Γ e t S' Δ := by
  cases h with
  | @mk _ S₁ _ _ id span form _ hform hreaches =>
    refine ⟨.mk hform hreaches, fun hle => ?_⟩
    have hrecord : J.exprType id = t.subst J.vars :=
      hJ.records (id, t) (hle.records.subset (List.mem_append_right _ (List.mem_singleton_self _)))
    rw [← hrecord]
    refine .mk ?_
    rw [hrecord]
    exact hform.confirms hJ ((Found.grows_record ..).trans hle)

theorem FormFinds.confirms (hJ : J.Solves W total) {id : ExprId} {S S' : Found} {Γ Δ : Env}
    {form : ExprForm} {t : TypeTree} (h : FormFinds W id S Γ form t S' Δ) :
    J.ConfirmsForm total Γ form t S' Δ := by
  cases h with
  | literal h => exact confirms_literal h
  | localName h => exact confirms_localName h
  | generalName h hname ht => exact confirms_generalName hJ h hname ht
  | fixedName h hname => exact confirms_fixedName hJ h hname
  | call hcallee hargs hcall =>
    exact confirms_call hJ (hcallee.confirms hJ) (hargs.confirms hJ) hcall
  | logical hop hleft hright =>
    exact confirms_logical hJ hop (hleft.confirms hJ) (hright.confirms hJ)
  | overloaded hop hleft hright hx =>
    exact confirms_overloaded hJ hop (hleft.confirms hJ) (hright.confirms hJ) hx
  | neg hoperand hx => exact confirms_neg hJ (hoperand.confirms hJ) hx
  | not hoperand => exact confirms_not hJ (hoperand.confirms hJ)
  | addressOf hoperand => exact confirms_addressOf (hoperand.confirms hJ)
  | deref hoperand hx => exact confirms_deref hJ (hoperand.confirms hJ) hx
  | field hreceiver _ hopens hfield ht =>
    exact confirms_field hJ (hreceiver.confirms hJ) hopens hfield ht
  | construct hitems hopens hlen => exact confirms_construct hJ (hitems.confirms hJ) hopens hlen
  | tuple hitems => exact confirms_tuple (hitems.confirms hJ)
  | array hx hitems =>
    intro hle
    obtain ⟨hall, hagrees⟩ := hitems.sound hJ hle
    rw [subst_mk rfl]
    exact .array hall hagrees
  | block hitems => exact confirms_block (hitems.confirms hJ)
  | ifThen hcondition hthen => exact confirms_ifThen hJ (hcondition.confirms hJ) (hthen.confirms hJ)
  | ifElse hcondition hthen helse =>
    exact confirms_ifElse hJ (hcondition.confirms hJ) (hthen.confirms hJ) (helse.confirms hJ)
  | select hscrutinee hx harms =>
    intro hle
    have hle₁ := hx.toWidens.grows.trans (harms.grows.trans hle)
    exact .select ((hscrutinee.confirms hJ).sound hle₁) (harms.sound hJ hle)
  | loop hcondition hbody => exact confirms_loop hJ (hcondition.confirms hJ) (hbody.confirms hJ)
  | define hinit => exact confirms_define (hinit.confirms hJ)
  | defineAs hinit hwritten => exact confirms_defineAs hJ (hinit.confirms hJ) hwritten
  | assign htarget hvalue => exact confirms_assign hJ (htarget.confirms hJ) (hvalue.confirms hJ)
  | ascribe hexpr hwritten => exact confirms_ascribe hJ (hexpr.confirms hJ) hwritten
  | lambda hparams hbody => exact confirms_lambda hJ hparams (hbody.confirms hJ)

theorem AllFind.confirms (hJ : J.Solves W total) {S S' : Found} {Γ Δ : Env} {es : List Expr}
    {ts : List TypeTree} (h : AllFind W S Γ es ts S' Δ) : J.ConfirmsAll W total S Γ es ts S' Δ := by
  refine ⟨h, fun hle => ?_⟩
  cases h with
  | nil => exact .nil
  | cons he hrest =>
    exact .cons ((he.confirms hJ).sound (hrest.grows.trans hle)) ((hrest.confirms hJ).sound hle)

theorem ElementsFind.sound (hJ : J.Solves W total) {elem : TypeTree} {S S' : Found} {Γ Δ : Env}
    {es : List Expr} {ts : List TypeTree} (h : ElementsFind W elem S Γ es ts S' Δ)
    (hle : S'.Grows total) :
    AllHaveType J (Γ.subst J.vars) es (ts.map (subst J.vars)) (Δ.subst J.vars) ∧
      ∀ t ∈ ts.map (subst J.vars), J.Agrees (elem.subst J.vars) t := by
  cases h with
  | nil => exact ⟨.nil, by simp⟩
  | cons he hrest =>
    have hle₁ := hrest.grows.trans hle
    obtain ⟨hall, hagrees⟩ := hrest.sound hJ hle
    exact ⟨.cons ((he.confirms hJ).sound ((Found.grows_ask ..).trans hle₁)) hall,
      List.forall_mem_cons.mpr ⟨hJ.ask hle₁, hagrees⟩⟩

theorem ArmsFind.sound (hJ : J.Solves W total) {s t : TypeTree} {S S' : Found} {Γ : Env}
    {arms : List Arm} (h : ArmsFind W s t S Γ arms S') (hle : S'.Grows total) :
    ArmsHaveType J (s.subst J.vars) (t.subst J.vars) (Γ.subst J.vars) arms := by
  cases h with
  | nil => exact .nil
  | cons hpattern hbody hrest =>
    have hle₂ := hrest.grows.trans hle
    have hle₁ := (Found.grows_ask ..).trans hle₂
    exact .cons (hpattern.sound hJ (hbody.grows.trans hle₁)) ((hbody.confirms hJ).sound hle₁)
      (hJ.ask hle₂) (hrest.sound hJ hle)

theorem PatternFinds.sound (hJ : J.Solves W total) {S S' : Found} {Γ Δ : Env} {p : Pattern}
    {s : TypeTree} (h : PatternFinds W S Γ p s S' Δ) (hle : S'.Grows total) :
    PatternHasType J (Γ.subst J.vars) p (s.subst J.vars) (Δ.subst J.vars) := by
  cases h with
  | wildcard => exact .wildcard
  | binding => exact .binding
  | literal hexpr =>
    have hle₁ := (Found.grows_ask ..).trans hle
    exact .literal ((hexpr.confirms hJ).sound hle₁) (hJ.ask hle)
  | tuple hxs hitems =>
    have hask := hJ.ask (hitems.grows.trans hle)
    rw [subst_tuple] at hask
    exact .tuple hask (hitems.sound hJ hle)
  | tag hopens hitems =>
    have hask := hJ.ask (hitems.grows.trans hle)
    rw [ProductDecl.result_subst, Typing.Solves.map_var_subst] at hask
    exact .tag (hJ.opens hopens) hask (hitems.sound hJ hle)

theorem PatternsFind.sound (hJ : J.Solves W total) {S S' : Found} {Γ Δ : Env} {ps : List Pattern}
    {ts : List TypeTree} (h : PatternsFind W S Γ ps ts S' Δ) (hle : S'.Grows total) :
    PatternsHaveType J (Γ.subst J.vars) ps (ts.map (subst J.vars)) (Δ.subst J.vars) := by
  cases h with
  | nil => exact .nil
  | cons hp hrest => exact .cons (hp.sound hJ (hrest.grows.trans hle)) (hrest.sound hJ hle)

end

end Sound

end ConstraintTyping
