import ConstraintTyping.Proofs.Infer.Soundness
import ConstraintTyping.Proofs.Solve.UnifyComplete

/-!
# Typings solve the constraints

Let the rules hold with equality for some types.  Then there is one replacement of variables that
solves every equation a walk finds and turns the types on record into those types.  The walk
introduces variables that were not in use, so what they stand for can be read off the typing when
they come up, and nothing that was found before notices.
-/

namespace ConstraintTyping

open TypeTree

/-! ## Replacements that agree on what is in use -/

/-- A replacement goes on from another: they agree on the variables in use and on those that the
program names. -/
structure Found.AgreeOn (S : Found) (σ σ' : VarIdent → TypeTree) : Prop where
  vars : ∀ x ∈ S.vars, σ' x = σ x
  named : ∀ n, σ' (.named n) = σ (.named n)

namespace Found.AgreeOn

variable {S S' : Found} {σ σ₁ σ₂ : VarIdent → TypeTree}

theorem refl (S : Found) (σ : VarIdent → TypeTree) : S.AgreeOn σ σ := ⟨fun _ _ => rfl, fun _ => rfl⟩

theorem trans (h : S.AgreeOn σ σ₁) (h' : S'.AgreeOn σ₁ σ₂) (hvars : S.vars ⊆ S'.vars) :
    S.AgreeOn σ σ₂ :=
  ⟨fun x hx => (h'.vars x (hvars hx)).trans (h.vars x hx), fun n => (h'.named n).trans (h.named n)⟩

theorem subst_eq (h : S.AgreeOn σ σ₁) {t : TypeTree} (ht : t.Over S.vars) :
    t.subst σ₁ = t.subst σ :=
  subst_congr fun x hx => h.vars x (ht x hx)

theorem map_subst_eq (h : S.AgreeOn σ σ₁) {ts : List TypeTree} (hts : ∀ t ∈ ts, t.Over S.vars) :
    ts.map (subst σ₁) = ts.map (subst σ) :=
  List.map_congr_left fun t ht => h.subst_eq (hts t ht)

theorem env_eq (h : S.AgreeOn σ σ₁) {Γ : Env} (hΓ : Γ.Over S.vars) : Γ.subst σ₁ = Γ.subst σ :=
  List.map_congr_left fun b hb => by rw [h.subst_eq (hΓ b hb)]

end Found.AgreeOn

/-- Parameters that are told apart are replaced by the arguments, one by one. -/
theorem map_assign {σ : VarIdent → TypeTree} {xs : List VarIdent} {us : List TypeTree}
    (hxs : xs.Nodup) (hlen : xs.length = us.length) : xs.map (assign σ xs us) = us := by
  induction xs generalizing us with
  | nil => exact (List.length_eq_zero_iff.mp hlen.symm).symm
  | cons x xs ih =>
    cases us with
    | nil => cases hlen
    | cons u us =>
      obtain ⟨hx, hxs⟩ := List.nodup_cons.mp hxs
      rw [List.map_cons]
      congr 1
      · simp [assign]
      · have htail : xs.map (assign σ (x :: xs) (u :: us)) = xs.map (assign σ xs us) := by
          refine List.map_congr_left fun y hy => ?_
          have hne : (y == x) = false := beq_false_of_ne fun h => hx (h ▸ hy)
          simp only [assign, List.zip_cons_cons, List.lookup_cons, hne]
        rw [htail, ih hxs (Nat.succ.inj hlen)]

theorem assign_of_notMem {σ : VarIdent → TypeTree} {xs : List VarIdent} {us : List TypeTree}
    {x : VarIdent} (hx : x ∉ xs) : assign σ xs us x = σ x := by
  have hnone : (xs.zip us).lookup x = none := by
    rw [List.lookup_eq_none_iff]
    intro p hp
    rw [bne_iff_ne]
    rintro rfl
    exact hx (List.of_mem_zip hp).1
  rw [assign, hnone]
  rfl

/-- Variables that come into use can stand for anything. -/
theorem Found.Introduces.choose {S S' : Found} {xs : List VarIdent} (h : S.Introduces S' xs)
    (σ : VarIdent → TypeTree) {us : List TypeTree} (hlen : us.length = xs.length) :
    ∃ σ', S.AgreeOn σ σ' ∧ xs.map σ' = us := by
  refine ⟨assign σ xs us, ⟨fun x hx => ?_, fun n => ?_⟩, map_assign h.nodup hlen.symm⟩
  · exact assign_of_notMem fun hmem => h.notMem x hmem hx
  · refine assign_of_notMem fun hmem => ?_
    obtain ⟨k, hk⟩ := h.fresh _ hmem
    cases hk

/-- A copy at fresh variables can stand for any instance. -/
theorem Found.Copies.choose {S S' : Found} {g t : TypeTree} (h : S.Copies S' g t)
    (σ φ : VarIdent → TypeTree) : ∃ σ', S.AgreeOn σ σ' ∧ t.subst σ' = g.subst φ := by
  classical
  obtain ⟨ρ, hρ, rfl⟩ := h.renames
  let σ' : VarIdent → TypeTree := fun y =>
    if h : ∃ x, g.Occurs x ∧ ρ x = y then φ h.choose else σ y
  refine ⟨σ', ⟨fun x hx => dif_neg ?_, fun n => dif_neg ?_⟩, ?_⟩
  · rintro ⟨y, hy, rfl⟩
    exact hρ.notMem y hy hx
  · rintro ⟨y, hy, hyn⟩
    obtain ⟨k, hk⟩ := hρ.fresh y hy
    rw [hyn] at hk
    cases hk
  · rw [subst_subst]
    refine subst_congr fun x hx => ?_
    have hex : ∃ y, g.Occurs y ∧ ρ y = ρ x := ⟨x, hx, rfl⟩
    rw [subst_var, show σ' (ρ x) = φ hex.choose from dif_pos hex,
      hρ.injOn hex.choose_spec.1 hx hex.choose_spec.2]

/-! ## Typings with equality -/

/-- A typing with equality, over the variables `V` that were in use before the walk. -/
structure Typing.Strict (J : Typing) (W : Surroundings) (V : Set VarIdent) : Prop where
  declarations : J.declarations = W.declarations
  agrees : J.Agrees = Eq
  callsMeta : J.callsMeta = false
  uses : ∀ {name : Name} {t : TypeTree} {s : Scheme}, J.Uses name t → W.names name = some s →
    s.general = true ∧ ∃ φ, t = s.type.subst φ
  fields : ∀ {name : Name} {p : ProductDecl}, W.declarations.product? name = some p →
    ∀ t ∈ p.fields, ∀ x, t.Occurs x → x ∈ p.params ∨ x ∈ V

/-- A replacement turns what was found into what the typing says. -/
structure Typing.Fits (J : Typing) (V : Set VarIdent) (S : Found) (σ : VarIdent → TypeTree) :
    Prop where
  subset : V ⊆ S.vars
  keeps : ∀ x ∈ V, σ x = J.vars x
  named : ∀ n, σ (.named n) = J.vars (.named n)
  equations : ∀ p ∈ S.equations, p.1.subst σ = p.2.subst σ
  records : ∀ r ∈ S.records, r.2.subst σ = J.exprType r.1

namespace Typing.Fits

variable {J : Typing} {W : Surroundings} {V : Set VarIdent} {S S' : Found}
  {σ σ' : VarIdent → TypeTree}

theorem agree (h : J.Fits V S σ) (hS : S.Closed) (hσ : S.AgreeOn σ σ') : J.Fits V S σ' where
  subset := h.subset
  keeps x hx := (hσ.vars x (h.subset hx)).trans (h.keeps x hx)
  named n := (hσ.named n).trans (h.named n)
  equations p hp := by
    rw [hσ.subst_eq (hS.equations p hp).1, hσ.subst_eq (hS.equations p hp).2]
    exact h.equations p hp
  records r hr := by
    rw [hσ.subst_eq (hS.records r hr)]
    exact h.records r hr

theorem widen (h : J.Fits V S σ) (hw : S.Widens S') : J.Fits V S' σ where
  subset := h.subset.trans hw.vars
  keeps := h.keeps
  named := h.named
  equations := by rw [hw.equations]; exact h.equations
  records := by rw [hw.records]; exact h.records

theorem askAll (h : J.Fits V S σ) {pairs : List (TypeTree × TypeTree)}
    (hp : ∀ p ∈ pairs, p.1.subst σ = p.2.subst σ) : J.Fits V (S.askAll pairs) σ where
  subset := h.subset
  keeps := h.keeps
  named := h.named
  equations p hmem := (List.mem_append.mp hmem).elim (h.equations p) (hp p)
  records := h.records

theorem ask (h : J.Fits V S σ) {l r : TypeTree} (heq : l.subst σ = r.subst σ) :
    J.Fits V (S.ask l r) σ :=
  h.askAll (show ∀ p ∈ [(l, r)], p.1.subst σ = p.2.subst σ by simpa using heq)

theorem record (h : J.Fits V S σ) {id : ExprId} {t : TypeTree} (ht : t.subst σ = J.exprType id) :
    J.Fits V (S.record id t) σ where
  subset := h.subset
  keeps := h.keeps
  named := h.named
  equations := h.equations
  records r hmem := (List.mem_append.mp hmem).elim (h.records r) fun hr => by
    rw [List.mem_singleton] at hr
    rw [hr]
    exact ht

theorem site (h : J.Fits V S σ) (id : ExprId) (f : TypeTree) : J.Fits V (S.site id f) σ :=
  ⟨h.subset, h.keeps, h.named, h.equations, h.records⟩

/-- The fields of a product at variables that stand for the arguments. -/
theorem openFields (h : J.Fits V S σ) (hJ : J.Strict W V) {name : Name} {p : ProductDecl}
    {xs : List VarIdent} (hopens : S.Opens S' W.declarations name p xs) {args : List TypeTree}
    (hargs : xs.map σ' = args) (hσ : S.AgreeOn σ σ') :
    (p.openFields xs).map (subst σ') = p.fieldsAt J.vars args := by
  rw [ProductDecl.openFields, p.fieldsAt_subst, Typing.Solves.map_var_subst, hargs]
  simp only [subst_var]
  refine List.map_congr_left fun t ht => subst_congr fun x hx => ?_
  rcases hJ.fields hopens.declared t ht x hx with hparam | hV
  · -- a parameter is looked up among the arguments
    have hlen : args.length = p.params.length := by
      rw [← hargs, List.length_map, hopens.length_eq]
    obtain ⟨u, hlookup⟩ := StoreM.exists_lookup_zip hlen.ge hparam
    simp only [assign, hlookup, Option.getD_some]
  · unfold assign
    exact congrArg _ ((hσ.vars x (h.subset hV)).trans (h.keeps x hV))

end Typing.Fits

/-- What is found from `S` on can be made to fit, on top of a replacement of what was in use. -/
def Typing.Extends (J : Typing) (V : Set VarIdent) (S : Found) (σ : VarIdent → TypeTree)
    (S' : Found) (P : (VarIdent → TypeTree) → Prop) : Prop :=
  ∃ σ', S.AgreeOn σ σ' ∧ J.Fits V S' σ' ∧ P σ'

namespace Typing

variable {J : Typing} {W : Surroundings} {V : Set VarIdent} {S S₁ S' : Found} {Γ : Env}
  {σ σ₁ : VarIdent → TypeTree} {P Q : (VarIdent → TypeTree) → Prop}

theorem Extends.mono (h : J.Extends V S σ S' P) (hPQ : ∀ σ', S.AgreeOn σ σ' → P σ' → Q σ') :
    J.Extends V S σ S' Q := by
  obtain ⟨σ', hag, hfits, hP⟩ := h
  exact ⟨σ', hag, hfits, hPQ σ' hag hP⟩

theorem Fits.extends (h : J.Fits V S σ) (hP : P σ) : J.Extends V S σ S P :=
  ⟨σ, .refl S σ, h, hP⟩

theorem Extends.after (h : J.Extends V S₁ σ₁ S' P) (hag : S.AgreeOn σ σ₁)
    (hvars : S.vars ⊆ S₁.vars) : J.Extends V S σ S' P := by
  obtain ⟨σ', hag', hfits, hP⟩ := h
  exact ⟨σ', hag.trans hag' hvars, hfits, hP⟩

theorem Extends.ask {l r : TypeTree} (h : J.Extends V S σ S' P)
    (heq : ∀ σ', S.AgreeOn σ σ' → P σ' → l.subst σ' = r.subst σ') :
    J.Extends V S σ (S'.ask l r) P := by
  obtain ⟨σ', hag, hfits, hP⟩ := h
  exact ⟨σ', hag, hfits.ask (heq σ' hag hP), hP⟩

/-- New variables are chosen to stand for given types. -/
theorem Fits.introduce (h : J.Fits V S σ) (hS : S.Holds Γ) {xs : List VarIdent}
    (hx : S.Introduces S' xs) {us : List TypeTree} (hlen : us.length = xs.length) :
    J.Extends V S σ S' fun σ' => xs.map σ' = us := by
  obtain ⟨σ', hag, hus⟩ := hx.choose σ hlen
  exact ⟨σ', hag, (h.agree hS.closed hag).widen hx.toWidens, hus⟩

theorem Fits.introduce_one (h : J.Fits V S σ) (hS : S.Holds Γ) {x : VarIdent}
    (hx : S.Introduces S' [x]) (u : TypeTree) : J.Extends V S σ S' fun σ' => σ' x = u :=
  (h.introduce hS hx (show [u].length = [x].length from rfl)).mono fun _ _ hu => (List.cons.inj hu).1

/-- A written type is read as the typing reads it. -/
theorem Fits.writes (h : J.Fits V S' σ) (hJ : J.Strict W V) {w : TypeExpr} {t u : TypeTree}
    (hw : S.Writes S' W.declarations w t) (hu : J.Denotes w u) : t.subst σ = u := by
  unfold Typing.Denotes at hu
  rw [hJ.declarations] at hu
  exact (hw.denotes.read σ).unique hu h.named

end Typing

theorem LiteralHas.unique {form : ExprForm} {t u : TypeTree} (h : LiteralHas form t)
    (h' : LiteralHas form u) : u = t := by
  cases h <;> cases h' <;> simp_all

/-- A literal has its fixed type in every typing and binds nothing. -/
theorem LiteralHas.inv {J : Typing} {Γ Δ : Env} {form : ExprForm} {t u : TypeTree}
    (h : LiteralHas form t) (h' : FormHasType J Γ form u Δ) : u = t ∧ Δ = Γ := by
  cases h <;> cases h' with
    | literal h' => exact ⟨LiteralHas.unique (by constructor <;> assumption) h', rfl⟩

theorem CallFinds.complete {J : Typing} {V : Set VarIdent} {S S' : Found} {Γ : Env} {id : ExprId}
    {f t τ : TypeTree} {ts : List TypeTree} {σ : VarIdent → TypeTree}
    (h : CallFinds id S f ts t S') (hS : S.Holds Γ) (hf : f.Over S.vars)
    (hts : ∀ t ∈ ts, t.Over S.vars) (hσ : J.Fits V S σ)
    (heq : f.subst σ = .mk (.function { ret := τ, params := ts.map (subst σ) })) :
    J.Extends V S σ S' fun σ' => t.subst σ' = τ := by
  cases h with
  | @unknown S₁ _ _ x _ hx =>
    refine ((hσ.introduce_one hS hx τ).ask fun σ' hag hτ => ?_).mono fun σ' _ hτ => ?_
    · rw [hag.subst_eq hf, heq, subst_mk rfl]
      simp only [Shape.map, Signature.map, subst_var, hτ, hag.map_subst_eq hts, List.map_nil]
    · rw [subst_var, hτ]
  | @known S₁ S₂ sig _ x hfits hsite hx =>
    rw [subst_mk rfl] at heq
    simp only [Shape.map, mk.injEq, Shape.function.injEq, Signature.map, Signature.mk.injEq] at heq
    obtain ⟨hret, hparams, -⟩ := heq
    have hover : ∀ c ∈ sig.children, c.Over S.vars := (over_mk rfl).mp hf
    have hretOver : sig.ret.Over S.vars := hover _ List.mem_cons_self
    have hparamsOver : ∀ p ∈ sig.params, p.Over S.vars := fun p hp =>
      hover p (List.mem_append_left _ (List.mem_cons_of_mem _ hp))
    -- the arguments fit the parameters before the result gets its variable
    have hpairs : ∀ p ∈ sig.params.zip ts, p.1.subst σ = p.2.subst σ := fun p hp =>
      Shape.eq_of_mem_zip hparams hp
    have hvars : S₁.vars = S.vars := by
      rw [hsite]
      split <;> rfl
    have hfits₁ : J.Fits V S₁ σ := by
      rw [hsite]
      split
      · exact hσ.askAll hpairs
      · exact (hσ.askAll hpairs).site ..
    have hS₁ : S₁.Holds Γ := by
      have hask : (S.askAll (sig.params.zip ts)).Holds Γ := hS.askAll fun p hp =>
        ⟨hparamsOver _ (List.of_mem_zip hp).1, hts _ (List.of_mem_zip hp).2⟩
      rw [hsite]
      split
      · exact hask
      · exact ⟨⟨hask.closed.equations, hask.closed.records⟩, hask.envOver⟩
    refine (((hfits₁.introduce_one hS₁ hx τ).ask fun σ' hag hτ => ?_).mono
      fun σ' _ hτ => ?_).after (.refl S σ) hvars.ge
    · rw [subst_var, hτ, hag.subst_eq (by rw [hvars]; exact hretOver), hret]
    · rw [subst_var, hτ]

theorem ParamsFind.complete {J : Typing} {W : Surroundings} {V : Set VarIdent} {S S' : Found}
    {Γ : Env} {ps : List Param} {ts us : List TypeTree} {σ : VarIdent → TypeTree}
    (hJ : J.Strict W V) (h : ParamsFind W.declarations S ps ts S') (hS : S.Holds Γ)
    (hus : List.Forall₂ J.ParamAt ps us) (hσ : J.Fits V S σ) :
    J.Extends V S σ S' fun σ' => ts.map (subst σ') = us := by
  induction h generalizing σ us with
  | nil => cases hus; exact hσ.extends rfl
  | @written S S₁ S' p rest w t ts hp ht hrest ih =>
    cases hus with
    | cons hu hus =>
      have hfits := hσ.widen ht.toWidens
      refine ((ih (hS.widen ht.toWidens) hus hfits).mono fun σ' hag hmap => ?_).after
        (.refl S σ) ht.vars
      rw [List.map_cons, hmap, hag.subst_eq ht.typeOver, hfits.writes hJ ht (hu w hp)]
  | @plain S S₁ S' p rest x ts hp hx hrest ih =>
    cases hus with
    | @cons _ u _ us hu hus =>
      obtain ⟨σ₁, hag₁, hfits₁, hx₁⟩ := hσ.introduce_one hS hx u
      refine ((ih (hS.widen hx.toWidens) hus hfits₁).mono fun σ' hag hmap => ?_).after hag₁ hx.vars
      rw [List.map_cons, hmap, subst_var, hag.vars x (hx.mem x (List.mem_singleton_self x)), hx₁]

theorem PatternsFind.length_eq {W : Surroundings} {S S' : Found} {Γ Δ : Env} {ps : List Pattern}
    {ts : List TypeTree} (h : PatternsFind W S Γ ps ts S' Δ) : ps.length = ts.length := by
  induction ps generalizing S Γ ts with
  | nil => cases h; rfl
  | cons p rest ih => cases h with | cons _ hrest => rw [List.length_cons, ih hrest]; rfl

theorem PatternsHaveType.length_eq {J : Typing} {Γ Δ : Env} {ps : List Pattern}
    {ts : List TypeTree} (h : PatternsHaveType J Γ ps ts Δ) : ps.length = ts.length := by
  induction ps generalizing Γ ts with
  | nil => cases h; rfl
  | cons p rest ih => cases h with | cons _ hrest => rw [List.length_cons, ih hrest]; rfl

/-- An operator without a trait is no comparison. -/
theorem BinaryOp.not_isComparison {op : BinaryOp} (h : op.traitName? = none) :
    op.isComparison = false := by
  cases op <;> first | rfl | cases h

/-! ## Forms -/

/-- An expression is walked, and whatever a typing says of it, what was found can be made to fit. -/
structure Typing.Recovers (J : Typing) (W : Surroundings) (V : Set VarIdent) (S : Found) (Γ : Env)
    (e : Expr) (t : TypeTree) (S' : Found) (Δ : Env) : Prop where
  finds : Finds W S Γ e t S' Δ
  complete : ∀ ⦃σ : VarIdent → TypeTree⦄ ⦃τ : TypeTree⦄ ⦃Δ' : Env⦄, HasType J (Γ.subst σ) e τ Δ' →
    S.Holds Γ → J.Fits V S σ → J.Extends V S σ S' fun σ' => t.subst σ' = τ ∧ Δ.subst σ' = Δ'

/-- Expressions are walked, and whatever a typing says of them, what was found can be made to fit. -/
structure Typing.RecoversAll (J : Typing) (W : Surroundings) (V : Set VarIdent) (S : Found) (Γ : Env)
    (es : List Expr) (ts : List TypeTree) (S' : Found) (Δ : Env) : Prop where
  find : AllFind W S Γ es ts S' Δ
  complete : ∀ ⦃σ : VarIdent → TypeTree⦄ ⦃us : List TypeTree⦄ ⦃Δ' : Env⦄,
    AllHaveType J (Γ.subst σ) es us Δ' → S.Holds Γ → J.Fits V S σ →
      J.Extends V S σ S' fun σ' => ts.map (subst σ') = us ∧ Δ.subst σ' = Δ'

/-- Whatever a typing says of an expression of some form, what is found can be made to fit. -/
def Typing.RecoversForm (J : Typing) (V : Set VarIdent) (S : Found) (Γ : Env) (form : ExprForm)
    (t : TypeTree) (S' : Found) (Δ : Env) : Prop :=
  ∀ ⦃σ : VarIdent → TypeTree⦄ ⦃τ : TypeTree⦄ ⦃Δ' : Env⦄, FormHasType J (Γ.subst σ) form τ Δ' →
    S.Holds Γ → J.Fits V S σ → J.Extends V S σ S' fun σ' => t.subst σ' = τ ∧ Δ.subst σ' = Δ'

namespace Typing

variable {J : Typing} {W : Surroundings} {V : Set VarIdent} {S S₁ S₂ S₃ S' : Found}
  {Γ Γ₁ Γ₂ Δ : Env} {form : ExprForm} {name field : Name} {p : ProductDecl} {xs : List VarIdent}
  {x : VarIdent} {f t u l r c : TypeTree} {ts : List TypeTree} {es : List Expr}
  {callee operand left right receiver condition thenBranch elseBranch body init target value
    expr : Expr} {op : BinaryOp} {written : TypeExpr}

theorem recovers_literal (h : LiteralHas form t) : J.RecoversForm V S Γ form t S Γ := by
  intro σ τ Δ' htype hS hσ
  obtain ⟨rfl, rfl⟩ := h.inv htype
  exact hσ.extends ⟨h.subst_eq σ, rfl⟩

theorem recovers_localName (h : Γ.lookup name = some t) :
    J.RecoversForm V S Γ (.ident name) t S Γ := by
  intro σ τ Δ' htype hS hσ
  cases htype with
  | literal h => cases h
  | localName h' =>
    rw [Env.lookup_subst, h] at h'
    exact hσ.extends ⟨Option.some.inj h', rfl⟩
  | globalName h' =>
    rw [Env.lookup_subst, h] at h'
    cases h'

/-- The copy of a general type can stand for any use of the name. -/
theorem recovers_generalName (hJ : J.Strict W V) {g : TypeTree} (h : Γ.lookup name = none)
    (hname : W.names name = some ⟨g, true⟩) (hcopies : S.Copies S' g t) :
    J.RecoversForm V S Γ (.ident name) t S' Γ := by
  intro σ τ Δ' htype hS hσ
  cases htype with
  | literal h => cases h
  | localName h' =>
    rw [Env.lookup_subst, h] at h'
    cases h'
  | globalName _ huse =>
    obtain ⟨-, φ, rfl⟩ := hJ.uses huse hname
    obtain ⟨σ', hag, ht⟩ := hcopies.choose σ φ
    exact ⟨σ', hag, (hσ.agree hS.closed hag).widen hcopies.toWidens, ht, hag.env_eq hS.envOver⟩

/-- A strict typing only uses names of general types. -/
theorem recovers_fixedName (hJ : J.Strict W V) (h : Γ.lookup name = none)
    (hname : W.names name = some ⟨t, false⟩) : J.RecoversForm V S Γ (.ident name) t S Γ := by
  intro σ τ Δ' htype hS hσ
  cases htype with
  | literal h => cases h
  | localName h' =>
    rw [Env.lookup_subst, h] at h'
    cases h'
  | globalName _ huse => cases (hJ.uses huse hname).1

theorem recovers_call (hJ : J.Strict W V) {id : ExprId} (hcallee : J.Recovers W V S Γ callee f S₁ Γ₁)
    (hargs : J.RecoversAll W V S₁ Γ₁ es ts S₂ Δ) (hcall : CallFinds id S₂ f ts t S') :
    J.RecoversForm V S Γ (.call callee es) t S' Δ := by
  intro σ τ Δ' htype hS hσ
  have hcalleeReaches := hcallee.finds.reaches
  have hcalleeVars := hcallee.finds.grows.vars
  have hargsVars := hargs.find.grows.vars
  cases htype with
  | literal h => cases h
  | call hcallee' hargs' hmeta h =>
    rw [hJ.agrees] at h
    rw [hJ.callsMeta] at hmeta
    obtain rfl := Bool.eq_false_iff.mpr fun hm => Bool.false_ne_true (hmeta hm)
    obtain ⟨σ₁, hag₁, hfits₁, rfl, rfl⟩ := hcallee.complete hcallee' hS hσ
    obtain ⟨σ₂, hag₂, hfits₂, rfl, rfl⟩ := hargs.complete hargs' hcalleeReaches.holds hfits₁
    obtain ⟨hS₂, hts⟩ := hargs.find.holds hcalleeReaches.holds
    -- walking the arguments has not changed how the callee reads
    rw [← hag₂.subst_eq hcalleeReaches.typeOver] at h
    have hnext := hcall.complete hS₂ (hcalleeReaches.typeOver.mono hargsVars) hts hfits₂ h
    exact (hnext.mono fun σ' hag ht => ⟨ht, hag.env_eq hS₂.envOver⟩).after
      (hag₁.trans hag₂ hcalleeVars) (hcalleeVars.trans hargsVars)

theorem recovers_logical (hJ : J.Strict W V) (hop : op.traitName? = none)
    (hleft : J.Recovers W V S Γ left l S₁ Γ₁) (hright : J.Recovers W V S₁ Γ₁ right r S₂ Δ) :
    J.RecoversForm V S Γ (.binary op left right) (prim .bool)
      ((S₂.ask (prim .bool) l).ask (prim .bool) r) Δ := by
  intro σ τ Δ' htype hS hσ
  have hleftReaches := hleft.finds.reaches
  cases htype with
  | literal h => cases h
  | comparison hop' => rw [BinaryOp.not_isComparison hop] at hop'; cases hop'
  | arithmetic hop' => rw [hop] at hop'; cases hop'
  | logical _ hleft' hright' hl hr =>
    rw [hJ.agrees] at hl hr
    obtain ⟨σ₁, hag₁, hfits₁, rfl, rfl⟩ := hleft.complete hleft' hS hσ
    obtain ⟨σ₂, hag₂, hfits₂, rfl, rfl⟩ := hright.complete hright' hleftReaches.holds hfits₁
    refine ⟨σ₂, hag₁.trans hag₂ hleft.finds.grows.vars, (hfits₂.ask ?_).ask ?_, subst_prim _ _, rfl⟩
    · rw [subst_prim, hag₂.subst_eq hleftReaches.typeOver, hl]
    · rw [subst_prim, hr]

/-- The variable of an operator can stand for the type of its operands. -/
theorem Recovers.operands (hleft : J.Recovers W V S Γ left l S₁ Γ₁)
    (hright : J.Recovers W V S₁ Γ₁ right r S₂ Δ) (hx : S₂.Introduces S₃ [x])
    {σ : VarIdent → TypeTree} {τ : TypeTree} {Γ₁' Δ' : Env} (hleft' : HasType J (Γ.subst σ) left τ Γ₁')
    (hright' : HasType J Γ₁' right τ Δ') (hS : S.Holds Γ) (hσ : J.Fits V S σ) :
    J.Extends V S σ ((S₃.ask (var x) l).ask (var x) r) fun σ' => σ' x = τ ∧ Δ.subst σ' = Δ' := by
  have hleftReaches := hleft.finds.reaches
  have hrightReaches := hright.finds.reaches
  have hleftVars := hleft.finds.grows.vars
  have hrightVars := hright.finds.grows.vars
  obtain ⟨σ₁, hag₁, hfits₁, hl, rfl⟩ := hleft.complete hleft' hS hσ
  obtain ⟨σ₂, hag₂, hfits₂, hr, rfl⟩ := hright.complete hright' hleftReaches.holds hfits₁
  obtain ⟨σ₃, hag₃, hfits₃, hx₃⟩ := hfits₂.introduce_one hrightReaches.holds hx τ
  refine ⟨σ₃, (hag₁.trans hag₂ hleftVars).trans hag₃ (hleftVars.trans hrightVars),
    (hfits₃.ask ?_).ask ?_, hx₃, hag₃.env_eq hrightReaches.envOver⟩
  · rw [subst_var, hx₃, hag₃.subst_eq (hleftReaches.typeOver.mono hrightVars),
      hag₂.subst_eq hleftReaches.typeOver, hl]
  · rw [subst_var, hx₃, hag₃.subst_eq hrightReaches.typeOver, hr]

theorem recovers_overloaded (hJ : J.Strict W V) (hop : op.traitName?.isSome = true)
    (hleft : J.Recovers W V S Γ left l S₁ Γ₁) (hright : J.Recovers W V S₁ Γ₁ right r S₂ Δ)
    (hx : S₂.Introduces S₃ [x]) :
    J.RecoversForm V S Γ (.binary op left right) (if op.isComparison then prim .bool else var x)
      ((S₃.ask (var x) l).ask (var x) r) Δ := by
  intro σ τ Δ' htype hS hσ
  cases htype with
  | literal h => cases h
  | logical hop' => rw [hop'] at hop; cases hop
  | comparison hcmp hleft' hright' h =>
    rw [hJ.agrees] at h
    subst h
    refine (hleft.operands hright hx hleft' hright' hS hσ).mono fun σ' _ hσ' => ⟨?_, hσ'.2⟩
    rw [if_pos hcmp, subst_prim]
  | arithmetic _ hcmp hleft' hright' h hl =>
    rw [hJ.agrees] at h hl
    subst h hl
    refine (hleft.operands hright hx hleft' hright' hS hσ).mono fun σ' _ hσ' => ⟨?_, hσ'.2⟩
    rw [hcmp, if_neg Bool.false_ne_true, subst_var, hσ'.1]

theorem recovers_neg (hJ : J.Strict W V) (hoperand : J.Recovers W V S Γ operand u S₁ Δ)
    (hx : S₁.Introduces S₂ [x]) :
    J.RecoversForm V S Γ (.unary .neg operand) (var x) (S₂.ask (var x) u) Δ := by
  intro σ τ Δ' htype hS hσ
  have hreaches := hoperand.finds.reaches
  cases htype with
  | literal h => cases h
  | neg hoperand' h =>
    rw [hJ.agrees] at h
    obtain ⟨σ₁, hag₁, hfits₁, rfl, rfl⟩ := hoperand.complete hoperand' hS hσ
    obtain ⟨σ₂, hag₂, hfits₂, hx₂⟩ := hfits₁.introduce_one hreaches.holds hx τ
    refine ⟨σ₂, hag₁.trans hag₂ hoperand.finds.grows.vars, hfits₂.ask ?_, by rw [subst_var, hx₂],
      hag₂.env_eq hreaches.envOver⟩
    rw [subst_var, hx₂, hag₂.subst_eq hreaches.typeOver, h]

theorem recovers_not (hJ : J.Strict W V) (hoperand : J.Recovers W V S Γ operand u S₁ Δ) :
    J.RecoversForm V S Γ (.unary .not operand) (prim .bool) (S₁.ask (prim .bool) u) Δ := by
  intro σ τ Δ' htype hS hσ
  cases htype with
  | literal h => cases h
  | not hoperand' h =>
    rw [hJ.agrees] at h
    obtain ⟨σ₁, hag₁, hfits₁, rfl, rfl⟩ := hoperand.complete hoperand' hS hσ
    exact ⟨σ₁, hag₁, hfits₁.ask (by rw [subst_prim, h]), subst_prim _ _, rfl⟩

theorem recovers_addressOf (hoperand : J.Recovers W V S Γ operand u S₁ Δ) :
    J.RecoversForm V S Γ (.unary .addressOf operand) (.mk (.pointer u)) S₁ Δ := by
  intro σ τ Δ' htype hS hσ
  cases htype with
  | literal h => cases h
  | addressOf hoperand' =>
    obtain ⟨σ₁, hag₁, hfits₁, rfl, rfl⟩ := hoperand.complete hoperand' hS hσ
    exact ⟨σ₁, hag₁, hfits₁, subst_mk rfl, rfl⟩

theorem recovers_deref (hJ : J.Strict W V) (hoperand : J.Recovers W V S Γ operand u S₁ Δ)
    (hx : S₁.Introduces S₂ [x]) :
    J.RecoversForm V S Γ (.unary .deref operand) (var x)
      (S₂.ask (.mk (.pointer (var x))) u) Δ := by
  intro σ τ Δ' htype hS hσ
  have hreaches := hoperand.finds.reaches
  cases htype with
  | literal h => cases h
  | deref hoperand' h =>
    rw [hJ.agrees] at h
    obtain ⟨σ₁, hag₁, hfits₁, rfl, rfl⟩ := hoperand.complete hoperand' hS hσ
    obtain ⟨σ₂, hag₂, hfits₂, hx₂⟩ := hfits₁.introduce_one hreaches.holds hx τ
    refine ⟨σ₂, hag₁.trans hag₂ hoperand.finds.grows.vars, hfits₂.ask ?_, by rw [subst_var, hx₂],
      hag₂.env_eq hreaches.envOver⟩
    rw [subst_mk rfl, hag₂.subst_eq hreaches.typeOver, ← h]
    simp only [Shape.map, subst_var, hx₂]

/-- Only one product has a field of a given name, so the typing opens the same one as the walk. -/
theorem recovers_field (hJ : J.Strict W V) {product : Name} {index : Nat}
    (hreceiver : J.Recovers W V S Γ receiver r S₁ Δ)
    (howner : ∀ name q, W.declarations.product? name = some q → some field ∈ q.fieldNames →
      name = product)
    (hopens : S₁.Opens S₂ W.declarations product p xs)
    (hfield : p.fieldNames.idxOf? (some field) = some index)
    (ht : (p.openFields xs)[index]? = some t) :
    J.RecoversForm V S Γ (.field receiver field) t
      (S₂.ask (.mk (.product product (xs.map var))) r) Δ := by
  intro σ τ Δ' htype hS hσ
  have hreaches := hreceiver.finds.reaches
  cases htype with
  | literal h => cases h
  | field hreceiver' hproduct hfield' ht' hr =>
    rw [hJ.agrees] at hr
    have hdeclared := hproduct.declared
    rw [hJ.declarations] at hdeclared
    obtain ⟨hi, hget, -⟩ := List.idxOf?_eq_some_iff.mp hfield'
    -- the typing and the walk mean the same product, declaration and place of the field
    obtain rfl := howner _ _ hdeclared (hget ▸ List.getElem_mem hi)
    obtain rfl := Option.some.inj (hopens.declared.symm.trans hdeclared)
    obtain rfl := Option.some.inj (hfield.symm.trans hfield')
    obtain ⟨σ₁, hag₁, hfits₁, rfl, rfl⟩ := hreceiver.complete hreceiver' hS hσ
    obtain ⟨σ₂, hag₂, hfits₂, hxs⟩ := hfits₁.introduce hreaches.holds
      hopens.toIntroduces (hproduct.length_args.trans hopens.length_eq.symm)
    refine ⟨σ₂, hag₁.trans hag₂ hreceiver.finds.grows.vars, hfits₂.ask ?_, ?_,
      hag₂.env_eq hreaches.envOver⟩
    · rw [subst_mk rfl, hag₂.subst_eq hreaches.typeOver, ← hr]
      simp only [Shape.map, Typing.Solves.map_var_subst, hxs]
    · have hfields := hfits₁.openFields hJ hopens hxs hag₂
      rw [← hproduct.fields] at hfields
      have hget : ((ProductDecl.openFields _ _).map (subst σ₂))[_]? = some _ :=
        (List.getElem?_map ..).trans (congrArg (Option.map (subst σ₂)) ht)
      rw [hfields, ht'] at hget
      exact (Option.some.inj hget).symm

theorem recovers_construct (hJ : J.Strict W V) (hitems : J.RecoversAll W V S Γ es ts S₁ Δ)
    (hopens : S₁.Opens S₂ W.declarations name p xs) :
    J.RecoversForm V S Γ (.construct name es) (p.result name (xs.map var))
      (S₂.askAll ((p.openFields xs).zip ts)) Δ := by
  intro σ τ Δ' htype hS hσ
  obtain ⟨hS₁, hts⟩ := hitems.find.holds hS
  cases htype with
  | literal h => cases h
  | construct hitems' hproduct h =>
    rw [hJ.agrees, List.forall₂_eq_eq_eq] at h
    have hdeclared := hproduct.declared
    rw [hJ.declarations] at hdeclared
    obtain rfl := Option.some.inj (hopens.declared.symm.trans hdeclared)
    obtain ⟨σ₁, hag₁, hfits₁, rfl, rfl⟩ := hitems.complete hitems' hS hσ
    -- the new variables stand for the arguments of the typing
    obtain ⟨σ₂, hag₂, hfits₂, hxs⟩ := hfits₁.introduce hS₁ hopens.toIntroduces
      (hproduct.length_args.trans hopens.length_eq.symm)
    have hfields := hfits₁.openFields hJ hopens hxs hag₂
    rw [← hproduct.fields, h, ← hag₂.map_subst_eq hts] at hfields
    refine ⟨σ₂, hag₁.trans hag₂ hitems.find.grows.vars, hfits₂.askAll fun p hp => ?_, ?_,
      hag₂.env_eq hS₁.envOver⟩
    · exact Shape.eq_of_mem_zip hfields hp
    · rw [ProductDecl.result_subst, Typing.Solves.map_var_subst, hxs]

theorem recovers_tuple (hitems : J.RecoversAll W V S Γ es ts S' Δ) :
    J.RecoversForm V S Γ (.tuple es) (TypeTree.tuple ts) S' Δ := by
  intro σ τ Δ' htype hS hσ
  cases htype with
  | literal h => cases h
  | tuple hitems' =>
    obtain ⟨σ₁, hag₁, hfits₁, rfl, rfl⟩ := hitems.complete hitems' hS hσ
    exact ⟨σ₁, hag₁, hfits₁, subst_tuple _ _, rfl⟩

/-- The variable of an array can stand for the type of its elements before they are walked. -/
theorem recovers_array (hJ : J.Strict W V) (hx : S.Introduces S₁ [x])
    (hitems : ∀ ⦃σ : VarIdent → TypeTree⦄ ⦃us : List TypeTree⦄ ⦃Δ' : Env⦄,
      AllHaveType J (Γ.subst σ) es us Δ' → S₁.Holds Γ → (var x).Over S₁.vars →
      (∀ u ∈ us, (var x).subst σ = u) → J.Fits V S₁ σ →
        J.Extends V S₁ σ S' fun σ' => ts.map (subst σ') = us ∧ Δ.subst σ' = Δ') :
    J.RecoversForm V S Γ (.array es) (.mk (.array (var x) (some es.length))) S' Δ := by
  intro σ τ Δ' htype hS hσ
  have hmem := hx.mem x (List.mem_singleton_self x)
  cases htype with
  | literal h => cases h
  | @array _ _ _ _ elem hitems' h =>
    rw [hJ.agrees] at h
    obtain ⟨σ₁, hag₁, hfits₁, rfl⟩ := hσ.introduce_one hS hx elem
    rw [← hag₁.env_eq hS.envOver] at hitems'
    have hnext := hitems hitems' (hS.widen hx.toWidens) (over_var.mpr hmem)
      (by rw [subst_var]; exact h) hfits₁
    refine (hnext.mono fun σ' hag hσ' => ⟨?_, hσ'.2⟩).after hag₁ hx.vars
    rw [subst_mk rfl]
    simp only [Shape.map, subst_var, hag.vars x hmem]

theorem recovers_block (hitems : J.RecoversAll W V S Γ es ts S' Δ) :
    J.RecoversForm V S Γ (.block es) (ts.getLastD (prim .unit)) S' Γ := by
  intro σ τ Δ' htype hS hσ
  cases htype with
  | literal h => cases h
  | block hitems' =>
    obtain ⟨σ₁, hag₁, hfits₁, rfl, rfl⟩ := hitems.complete hitems' hS hσ
    refine ⟨σ₁, hag₁, hfits₁, ?_, hag₁.env_eq hS.envOver⟩
    conv_rhs => rw [← subst_prim σ₁ .unit, List.getLastD_map]

/-- A condition is solved before the branches are walked. -/
theorem Recovers.ask_bool (hcondition : J.Recovers W V S Γ condition c S₁ Γ₁)
    {σ : VarIdent → TypeTree} {Γ₁' : Env}
    (hcondition' : HasType J (Γ.subst σ) condition (prim .bool) Γ₁') (hS : S.Holds Γ)
    (hσ : J.Fits V S σ) : (S₁.ask (prim .bool) c).Holds Γ₁ ∧
      J.Extends V S σ (S₁.ask (prim .bool) c) fun σ' => Γ₁.subst σ' = Γ₁' := by
  have hreaches := hcondition.finds.reaches
  obtain ⟨σ₁, hag₁, hfits₁, hc, rfl⟩ := hcondition.complete hcondition' hS hσ
  exact ⟨hreaches.holds.ask (over_prim .bool _) hreaches.typeOver,
    σ₁, hag₁, hfits₁.ask ((subst_prim σ₁ .bool).trans hc.symm), rfl⟩

theorem recovers_ifThen (hJ : J.Strict W V) (hcondition : J.Recovers W V S Γ condition c S₁ Γ₁)
    (hthen : J.Recovers W V (S₁.ask (prim .bool) c) Γ₁ thenBranch t S₂ Δ) :
    J.RecoversForm V S Γ (.ifThen condition thenBranch) (prim .unit) (S₂.ask (prim .unit) t) Δ := by
  intro σ τ Δ' htype hS hσ
  cases htype with
  | literal h => cases h
  | ifThen hcondition' hthen' hc ht =>
    rw [hJ.agrees] at hc ht
    subst hc
    obtain ⟨hholds, σ₁, hag₁, hfits₁, rfl⟩ := hcondition.ask_bool hcondition' hS hσ
    obtain ⟨σ₂, hag₂, hfits₂, rfl, rfl⟩ := hthen.complete hthen' hholds hfits₁
    exact ⟨σ₂, hag₁.trans hag₂ hcondition.finds.grows.vars,
      hfits₂.ask (by rw [subst_prim, ht]), subst_prim _ _, rfl⟩

theorem recovers_ifElse (hJ : J.Strict W V) (hcondition : J.Recovers W V S Γ condition c S₁ Γ₁)
    (hthen : J.Recovers W V (S₁.ask (prim .bool) c) Γ₁ thenBranch t S₂ Γ₂)
    (helse : J.Recovers W V S₂ Γ₂ elseBranch u S₃ Δ) :
    J.RecoversForm V S Γ (.ifElse condition thenBranch elseBranch) t (S₃.ask t u) Δ := by
  intro σ τ Δ' htype hS hσ
  have hreaches := hthen.finds.reaches
  have hvars := hcondition.finds.grows.vars
  cases htype with
  | literal h => cases h
  | ifElse hcondition' hthen' helse' hc h =>
    rw [hJ.agrees] at hc h
    subst hc
    obtain ⟨hholds, σ₁, hag₁, hfits₁, rfl⟩ := hcondition.ask_bool hcondition' hS hσ
    obtain ⟨σ₂, hag₂, hfits₂, rfl, rfl⟩ := hthen.complete hthen' hholds hfits₁
    obtain ⟨σ₃, hag₃, hfits₃, rfl, rfl⟩ := helse.complete helse' hreaches.holds hfits₂
    have ht := hag₃.subst_eq hreaches.typeOver
    exact ⟨σ₃, (hag₁.trans hag₂ hvars).trans hag₃ (hvars.trans hthen.finds.grows.vars),
      hfits₃.ask (ht.trans h), ht, rfl⟩

/-- The variable of a match can stand for the type of its arms before they are walked. -/
theorem recovers_select {scrutinee : Expr} {arms : List Arm}
    (hscrutinee : J.Recovers W V S Γ scrutinee u S₁ Δ) (hx : S₁.Introduces S₂ [x])
    (harms : ∀ ⦃σ : VarIdent → TypeTree⦄,
      ArmsHaveType J (u.subst σ) ((var x).subst σ) (Δ.subst σ) arms → S₂.Holds Δ → u.Over S₂.vars →
        (var x).Over S₂.vars → J.Fits V S₂ σ → J.Extends V S₂ σ S' fun _ => True) :
    J.RecoversForm V S Γ (.select scrutinee arms) (var x) S' Δ := by
  intro σ τ Δ' htype hS hσ
  have hreaches := hscrutinee.finds.reaches
  have hvars := hscrutinee.finds.grows.vars
  have hholds := hreaches.holds
  have hmem := hx.mem _ (List.mem_singleton_self _)
  cases htype with
  | literal h => cases h
  | select hscrutinee' harms' =>
    obtain ⟨σ₁, hag₁, hfits₁, rfl, rfl⟩ := hscrutinee.complete hscrutinee' hS hσ
    obtain ⟨σ₂, hag₂, hfits₂, rfl⟩ := hfits₁.introduce_one hholds hx τ
    rw [← hag₂.subst_eq hreaches.typeOver, ← hag₂.env_eq hholds.envOver, ← subst_var σ₂] at harms'
    have hnext := harms harms' (hholds.widen hx.toWidens) (hreaches.typeOver.mono hx.vars)
      (over_var.mpr hmem) hfits₂
    refine (hnext.mono fun σ' hag _ => ⟨?_, ?_⟩).after (hag₁.trans hag₂ hvars)
      (hvars.trans hx.vars)
    · rw [subst_var, hag.vars _ hmem]
    · rw [hag.env_eq (hholds.envOver.mono hx.vars), hag₂.env_eq hholds.envOver]

theorem recovers_loop (hJ : J.Strict W V) (hcondition : J.Recovers W V S Γ condition c S₁ Γ₁)
    (hbody : J.Recovers W V (S₁.ask (prim .bool) c) Γ₁ body t S' Δ) :
    J.RecoversForm V S Γ (.loop condition body) (prim .unit) S' Δ := by
  intro σ τ Δ' htype hS hσ
  cases htype with
  | literal h => cases h
  | loop hcondition' hbody' hc =>
    rw [hJ.agrees] at hc
    subst hc
    obtain ⟨hholds, σ₁, hag₁, hfits₁, rfl⟩ := hcondition.ask_bool hcondition' hS hσ
    obtain ⟨σ₂, hag₂, hfits₂, -, rfl⟩ := hbody.complete hbody' hholds hfits₁
    exact ⟨σ₂, hag₁.trans hag₂ hcondition.finds.grows.vars, hfits₂, subst_prim _ _, rfl⟩

theorem recovers_define (hinit : J.Recovers W V S Γ init t S' Δ) :
    J.RecoversForm V S Γ (.define name none init) (prim .unit) S' ((name, t) :: Δ) := by
  intro σ τ Δ' htype hS hσ
  cases htype with
  | literal h => cases h
  | define hinit' =>
    obtain ⟨σ₁, hag₁, hfits₁, rfl, rfl⟩ := hinit.complete hinit' hS hσ
    exact ⟨σ₁, hag₁, hfits₁, subst_prim _ _, rfl⟩

theorem recovers_defineAs (hJ : J.Strict W V) (hinit : J.Recovers W V S Γ init u S₁ Δ)
    (hwritten : S₁.Writes S₂ W.declarations written t) :
    J.RecoversForm V S Γ (.define name (some written) init) (prim .unit) (S₂.ask t u)
      ((name, t) :: Δ) := by
  intro σ τ Δ' htype hS hσ
  cases htype with
  | literal h => cases h
  | defineAs hinit' hwritten' h =>
    rw [hJ.agrees] at h
    obtain ⟨σ₁, hag₁, hfits₁, rfl, rfl⟩ := hinit.complete hinit' hS hσ
    have hfits₂ := hfits₁.widen hwritten.toWidens
    obtain rfl := hfits₂.writes hJ hwritten hwritten'
    exact ⟨σ₁, hag₁, hfits₂.ask h, subst_prim _ _, rfl⟩

theorem recovers_assign (hJ : J.Strict W V) (htarget : J.Recovers W V S Γ target t S₁ Γ₁)
    (hvalue : J.Recovers W V S₁ Γ₁ value u S₂ Δ) :
    J.RecoversForm V S Γ (.assign target value) (prim .unit) (S₂.ask t u) Δ := by
  intro σ τ Δ' htype hS hσ
  have hreaches := htarget.finds.reaches
  cases htype with
  | literal h => cases h
  | assign htarget' hvalue' h =>
    rw [hJ.agrees] at h
    obtain ⟨σ₁, hag₁, hfits₁, rfl, rfl⟩ := htarget.complete htarget' hS hσ
    obtain ⟨σ₂, hag₂, hfits₂, rfl, rfl⟩ := hvalue.complete hvalue' hreaches.holds hfits₁
    refine ⟨σ₂, hag₁.trans hag₂ htarget.finds.grows.vars, hfits₂.ask ?_, subst_prim _ _, rfl⟩
    rw [hag₂.subst_eq hreaches.typeOver, h]

theorem recovers_ascribe (hJ : J.Strict W V) (hexpr : J.Recovers W V S Γ expr u S₁ Δ)
    (hwritten : S₁.Writes S₂ W.declarations written t) :
    J.RecoversForm V S Γ (.ascribe expr written) t (S₂.ask t u) Δ := by
  intro σ τ Δ' htype hS hσ
  cases htype with
  | literal h => cases h
  | ascribe hexpr' hwritten' h =>
    rw [hJ.agrees] at h
    obtain ⟨σ₁, hag₁, hfits₁, rfl, rfl⟩ := hexpr.complete hexpr' hS hσ
    have hfits₂ := hfits₁.widen hwritten.toWidens
    obtain rfl := hfits₂.writes hJ hwritten hwritten'
    exact ⟨σ₁, hag₁, hfits₂.ask h, rfl, rfl⟩

theorem recovers_lambda (hJ : J.Strict W V) {params : List Param}
    (hparams : ParamsFind W.declarations S params ts S₁)
    (hbody : J.Recovers W V S₁ (Γ.bindParams params ts) body t S' Δ) :
    J.RecoversForm V S Γ (.lambda params body) (.mk (.function { ret := t, params := ts })) S'
      Γ := by
  intro σ τ Δ' htype hS hσ
  have hholds := hS.widen hparams.widens
  cases htype with
  | literal h => cases h
  | lambda hparams' hbody' =>
    obtain ⟨σ₁, hag₁, hfits₁, rfl⟩ := hparams.complete hJ hS hparams' hσ
    rw [← hag₁.env_eq hS.envOver, ← Env.subst_bindParams] at hbody'
    have hnext := hbody.complete hbody'
      ⟨hholds.closed, Env.over_bindParams hholds.envOver hparams.over⟩ hfits₁
    refine (hnext.mono fun σ' hag hσ' => ⟨?_, ?_⟩).after hag₁ hparams.widens.vars
    · rw [subst_mk rfl]
      simp only [Shape.map, Signature.map, hσ'.1, hag.map_subst_eq hparams.over, List.map_nil]
    · rw [hag.env_eq hholds.envOver, hag₁.env_eq hS.envOver]

end Typing

/-! ## Walks -/

section Complete

open Typing

variable {J : Typing} {W : Surroundings} {V : Set VarIdent}

mutual

/-- The constraints of a typed expression can be solved so that its type is the one of the typing. -/
theorem Finds.recovers (hJ : J.Strict W V) {S S' : Found} {Γ Δ : Env} {e : Expr} {t : TypeTree}
    (h : Finds W S Γ e t S' Δ) : J.Recovers W V S Γ e t S' Δ := by
  cases h with
  | mk hform hreaches =>
    refine ⟨.mk hform hreaches, fun σ τ Δ' htype hS hσ => ?_⟩
    cases htype with
    | mk htype =>
      obtain ⟨σ', hag, hfits, ht, hΔ⟩ := hform.recovers hJ htype hS hσ
      exact ⟨σ', hag, hfits.record ht, ht, hΔ⟩

theorem FormFinds.recovers (hJ : J.Strict W V) {id : ExprId} {S S' : Found} {Γ Δ : Env}
    {form : ExprForm} {t : TypeTree} (h : FormFinds W id S Γ form t S' Δ) :
    J.RecoversForm V S Γ form t S' Δ := by
  cases h with
  | literal h => exact recovers_literal h
  | localName h => exact recovers_localName h
  | generalName h hname hcopies => exact recovers_generalName hJ h hname hcopies
  | fixedName h hname => exact recovers_fixedName hJ h hname
  | call hcallee hargs hcall =>
    exact recovers_call hJ (hcallee.recovers hJ) (hargs.recovers hJ) hcall
  | logical hop hleft hright =>
    exact recovers_logical hJ hop (hleft.recovers hJ) (hright.recovers hJ)
  | overloaded hop hleft hright hx =>
    exact recovers_overloaded hJ hop (hleft.recovers hJ) (hright.recovers hJ) hx
  | neg hoperand hx => exact recovers_neg hJ (hoperand.recovers hJ) hx
  | not hoperand => exact recovers_not hJ (hoperand.recovers hJ)
  | addressOf hoperand => exact recovers_addressOf (hoperand.recovers hJ)
  | deref hoperand hx => exact recovers_deref hJ (hoperand.recovers hJ) hx
  | field hreceiver howner hopens hfield ht =>
    exact recovers_field hJ (hreceiver.recovers hJ) howner hopens hfield ht
  | construct hitems hopens _ => exact recovers_construct hJ (hitems.recovers hJ) hopens
  | tuple hitems => exact recovers_tuple (hitems.recovers hJ)
  | array hx hitems => exact recovers_array hJ hx fun _ _ _ => hitems.complete hJ
  | block hitems => exact recovers_block (hitems.recovers hJ)
  | ifThen hcondition hthen => exact recovers_ifThen hJ (hcondition.recovers hJ) (hthen.recovers hJ)
  | ifElse hcondition hthen helse =>
    exact recovers_ifElse hJ (hcondition.recovers hJ) (hthen.recovers hJ) (helse.recovers hJ)
  | select hscrutinee hx harms =>
    exact recovers_select (hscrutinee.recovers hJ) hx fun _ => harms.complete hJ
  | loop hcondition hbody => exact recovers_loop hJ (hcondition.recovers hJ) (hbody.recovers hJ)
  | define hinit => exact recovers_define (hinit.recovers hJ)
  | defineAs hinit hwritten => exact recovers_defineAs hJ (hinit.recovers hJ) hwritten
  | assign htarget hvalue => exact recovers_assign hJ (htarget.recovers hJ) (hvalue.recovers hJ)
  | ascribe hexpr hwritten => exact recovers_ascribe hJ (hexpr.recovers hJ) hwritten
  | lambda hparams hbody => exact recovers_lambda hJ hparams (hbody.recovers hJ)

theorem AllFind.recovers (hJ : J.Strict W V) {S S' : Found} {Γ Δ : Env} {es : List Expr}
    {ts : List TypeTree} (h : AllFind W S Γ es ts S' Δ) : J.RecoversAll W V S Γ es ts S' Δ := by
  refine ⟨h, fun σ us Δ' htype hS hσ => ?_⟩
  cases h with
  | nil => cases htype; exact hσ.extends ⟨rfl, rfl⟩
  | cons he hrest =>
    cases htype with
    | cons he' hrest' =>
      obtain ⟨σ₁, hag₁, hfits₁, rfl, rfl⟩ := (he.recovers hJ).complete he' hS hσ
      have hnext := (hrest.recovers hJ).complete hrest' he.reaches.holds hfits₁
      refine (hnext.mono fun σ' hag h => ?_).after hag₁ he.grows.vars
      rw [List.map_cons, hag.subst_eq he.reaches.typeOver, h.1]
      exact ⟨rfl, h.2⟩

theorem ElementsFind.complete (hJ : J.Strict W V) {elem : TypeTree} {S S' : Found}
    {Γ Δ Δ' : Env} {es : List Expr} {ts us : List TypeTree} {σ : VarIdent → TypeTree}
    (h : ElementsFind W elem S Γ es ts S' Δ) (htype : AllHaveType J (Γ.subst σ) es us Δ')
    (hS : S.Holds Γ) (helem : elem.Over S.vars) (hus : ∀ u ∈ us, elem.subst σ = u)
    (hσ : J.Fits V S σ) :
    J.Extends V S σ S' fun σ' => ts.map (subst σ') = us ∧ Δ.subst σ' = Δ' := by
  cases h with
  | nil => cases htype; exact hσ.extends ⟨rfl, rfl⟩
  | cons he hrest =>
    cases htype with
    | cons he' hrest' =>
      obtain ⟨hu, hrestUs⟩ := List.forall_mem_cons.mp hus
      obtain ⟨σ₁, hag₁, hfits₁, rfl, rfl⟩ := (he.recovers hJ).complete he' hS hσ
      have helem₁ := hag₁.subst_eq helem
      have hover := helem.mono he.grows.vars
      have hnext := hrest.complete hJ hrest' (he.reaches.holds.ask hover he.reaches.typeOver) hover
        (fun u hmem => helem₁.trans (hrestUs u hmem)) (hfits₁.ask (helem₁.trans hu))
      refine (hnext.mono fun σ' hag h => ?_).after hag₁ he.grows.vars
      have hfirst := Found.AgreeOn.subst_eq hag he.reaches.typeOver
      rw [List.map_cons, hfirst, h.1]
      exact ⟨rfl, h.2⟩

theorem ArmsFind.complete (hJ : J.Strict W V) {s t : TypeTree} {S S' : Found} {Γ : Env}
    {arms : List Arm} {σ : VarIdent → TypeTree} (h : ArmsFind W s t S Γ arms S')
    (htype : ArmsHaveType J (s.subst σ) (t.subst σ) (Γ.subst σ) arms) (hS : S.Holds Γ)
    (hs : s.Over S.vars) (ht : t.Over S.vars) (hσ : J.Fits V S σ) :
    J.Extends V S σ S' fun _ => True := by
  cases h with
  | nil => exact hσ.extends trivial
  | cons hpattern hbody hrest =>
    cases htype with
    | cons hpattern' hbody' h hrest' =>
      rw [hJ.agrees] at h
      obtain ⟨σ₁, hag₁, hfits₁, rfl⟩ := hpattern.complete hJ hpattern' hS hs hσ
      obtain ⟨σ₂, hag₂, hfits₂, rfl, -⟩ :=
        (hbody.recovers hJ).complete hbody' (hpattern.holds hS hs) hfits₁
      have hvars := hpattern.grows.vars.trans hbody.grows.vars
      have hag := hag₁.trans hag₂ hpattern.grows.vars
      rw [← hag.subst_eq hs, ← hag.subst_eq ht, ← hag.env_eq hS.envOver] at hrest'
      have hholds : Found.Holds _ Γ := ⟨hbody.reaches.closed, hS.envOver.mono hvars⟩
      have hnext := hrest.complete hJ hrest' (hholds.ask (ht.mono hvars) hbody.reaches.typeOver)
        (hs.mono hvars) (ht.mono hvars) (hfits₂.ask ((hag.subst_eq ht).trans h))
      exact hnext.after hag hvars

theorem PatternFinds.complete (hJ : J.Strict W V) {S S' : Found} {Γ Δ Δ' : Env} {p : Pattern}
    {s : TypeTree} {σ : VarIdent → TypeTree} (h : PatternFinds W S Γ p s S' Δ)
    (htype : PatternHasType J (Γ.subst σ) p (s.subst σ) Δ') (hS : S.Holds Γ)
    (hs : s.Over S.vars) (hσ : J.Fits V S σ) :
    J.Extends V S σ S' fun σ' => Δ.subst σ' = Δ' := by
  cases h with
  | wildcard => cases htype; exact hσ.extends rfl
  | binding => cases htype; exact hσ.extends rfl
  | literal hexpr =>
    cases htype with
    | literal hexpr' h =>
      rw [hJ.agrees] at h
      obtain ⟨σ₁, hag₁, hfits₁, rfl, rfl⟩ := (hexpr.recovers hJ).complete hexpr' hS hσ
      exact ⟨σ₁, hag₁, hfits₁.ask ((hag₁.subst_eq hs).trans h), rfl⟩
  | tuple hxs hitems =>
    cases htype with
    | tuple h hitems' =>
      rw [hJ.agrees] at h
      have hlen := hitems'.length_eq.symm.trans hitems.length_eq
      rw [List.length_map] at hlen
      obtain ⟨σ₁, hag₁, hfits₁, rfl⟩ := hσ.introduce hS hxs hlen
      have hover := hxs.over
      rw [← hag₁.env_eq hS.envOver, ← Typing.Solves.map_var_subst] at hitems'
      have hask := hfits₁.ask (l := s) (r := TypeTree.tuple _)
        (by rw [hag₁.subst_eq hs, h, subst_tuple, Typing.Solves.map_var_subst])
      have hnext := hitems.complete hJ hitems'
        ((hS.widen hxs.toWidens).ask (hs.mono hxs.vars) (over_tuple hover)) hover hask
      exact hnext.after hag₁ hxs.vars
  | tag hopens hitems =>
    cases htype with
    | tag hproduct h hitems' =>
      rw [hJ.agrees] at h
      have hdeclared := hproduct.declared
      rw [hJ.declarations] at hdeclared
      obtain rfl := Option.some.inj (hopens.declared.symm.trans hdeclared)
      obtain ⟨σ₁, hag₁, hfits₁, hxs⟩ := hσ.introduce hS hopens.toIntroduces
        (hproduct.length_args.trans hopens.length_eq.symm)
      have hfields := hσ.openFields hJ hopens hxs hag₁
      rw [hproduct.fields, ← hag₁.env_eq hS.envOver, ← hfields] at hitems'
      rw [← hxs, ← Typing.Solves.map_var_subst, ← ProductDecl.result_subst] at h
      have hnext := hitems.complete hJ hitems'
        ((hS.widen hopens.toWidens).ask (hs.mono hopens.vars) hopens.resultOver)
        hopens.fieldsOver (hfits₁.ask ((hag₁.subst_eq hs).trans h))
      exact hnext.after hag₁ hopens.vars

theorem PatternsFind.complete (hJ : J.Strict W V) {S S' : Found} {Γ Δ Δ' : Env}
    {ps : List Pattern} {ts : List TypeTree} {σ : VarIdent → TypeTree}
    (h : PatternsFind W S Γ ps ts S' Δ)
    (htype : PatternsHaveType J (Γ.subst σ) ps (ts.map (subst σ)) Δ') (hS : S.Holds Γ)
    (hts : ∀ t ∈ ts, t.Over S.vars) (hσ : J.Fits V S σ) :
    J.Extends V S σ S' fun σ' => Δ.subst σ' = Δ' := by
  cases h with
  | nil => cases htype; exact hσ.extends rfl
  | cons hp hrest =>
    rw [List.map_cons] at htype
    cases htype with
    | cons hp' hrest' =>
      obtain ⟨ht, hts⟩ := List.forall_mem_cons.mp hts
      obtain ⟨σ₁, hag₁, hfits₁, rfl⟩ := hp.complete hJ hp' hS ht hσ
      rw [← hag₁.map_subst_eq hts] at hrest'
      have hnext := hrest.complete hJ hrest' (hp.holds hS ht)
        (fun t hmem => (hts t hmem).mono hp.grows.vars) hfits₁
      exact hnext.after hag₁ hp.grows.vars

end

end Complete

end ConstraintTyping
