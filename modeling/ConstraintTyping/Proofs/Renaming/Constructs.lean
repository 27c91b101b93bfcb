import ConstraintTyping.Proofs.Renaming.Walking

/-!
# The rule of each construct, side by side

Two walks in step that come to the same construct, with parts whose types are alike, give it types
that are alike.  The written types on the right have other names for their variables, those that the
renaming gives.
-/

namespace ConstraintTyping

open Store StoreM FindM

namespace SideBySide

open Renaming

variable {J : SideBySide} {w w' : Stores} {a a' b b' : TypeId} {as bs : List TypeId}

/-! ## Names, literals and operators -/

theorem walks_suffixRule (allowed : Prim → Bool) (suffix : Name) (span : Span) :
    J.Walks (suffixRule allowed suffix span) (suffixRule allowed suffix span) w J.R.Alike := by
  unfold suffixRule
  split
  · next p _ => exact walks_pure (J.R.alike_prim w p)
  · exact walks_fault _

theorem walks_intRule (suffix : Option Name) (span : Span) :
    J.Walks (intRule suffix span) (intRule suffix span) w J.R.Alike := by
  cases suffix with
  | none => exact walks_pure (J.R.alike_prim w .i32)
  | some s => exact walks_suffixRule _ s span

theorem walks_floatRule (suffix : Option Name) (span : Span) :
    J.Walks (floatRule suffix span) (floatRule suffix span) w J.R.Alike := by
  cases suffix with
  | none => exact walks_pure (J.R.alike_prim w .f64)
  | some s => exact walks_suffixRule _ s span

theorem walks_identRule {name : Name} (hname : name ∈ J.names) (span : Span) :
    J.Walks (identRule name span) (identRule name span) w J.R.Alike := by
  unfold identRule
  refine walks_read_bind (walks_get_bind fun s s' hs => ?_)
  have hlocal := hs.scopes.lookup? name
  generalize s.scopes.lookup? name = o at hlocal
  generalize s'.scopes.lookup? name = o' at hlocal
  cases hlocal with
  | some hty => exact walks_pure hty
  | none =>
    have hglobal := hs.sees.globals name hname
    dsimp only
    generalize J.context.globals[name]? = g at hglobal
    generalize J.context'.globals[name]? = g' at hglobal
    cases hglobal with
    | @some g g' hg =>
      dsimp only
      rw [hg.finished]
      split
      · next hfin =>
        obtain ⟨hv, hq, R₀, hty⟩ := hg.general hfin
        exact walks_builds (couples_instantiateFresh hty hv hq) (builds_instantiateFresh _)
          (builds_instantiateFresh _)
      · next hfin => exact walks_pure (hg.provisional (by simpa using hfin))
    | none =>
      dsimp only
      rw [hs.sees.traits]
      cases hmethod : J.context.traits.method? name with
      | none => exact walks_fault _
      | some ty =>
        obtain ⟨hty, hv, hq⟩ := hs.sees.methods hmethod
        exact walks_builds (couples_instantiateFresh hty hv hq) (builds_instantiateFresh _)
          (builds_instantiateFresh _)

theorem rel_zipIdx {α β : Type} {r : α → β → Prop} {xs : List α} {ys : List β}
    (h : List.Forall₂ r xs ys) (n : Nat) :
    List.Forall₂ (fun p q => r p.1 q.1 ∧ q.2 = p.2) (xs.zipIdx n) (ys.zipIdx n) := by
  induction h generalizing n with
  | nil => exact .nil
  | cons hxy _ ih => exact .cons ⟨hxy, rfl⟩ (ih (n + 1))

theorem walks_argumentsRule (reason : Nat → Reason) {params params' : List TypeId}
    (hparams : J.R.AllAlike w params params') (hargs : J.R.AllAlike w as bs) (spans : List Span) :
    J.Walks (argumentsRule reason params as spans) (argumentsRule reason params' bs spans) w
      fun _ _ _ => True := by
  have hspans : List.Forall₂ (fun p q : Span => q = p) spans spans :=
    List.forall₂_same.mpr fun _ _ => rfl
  refine walks_forM
    (r := fun w (p q : (TypeId × TypeId × Span) × Nat) =>
      (J.R.Alike w p.1.1 q.1.1 ∧ J.R.Alike w p.1.2.1 q.1.2.1 ∧ q.1.2.2 = p.1.2.2) ∧ q.2 = p.2)
    (fun _ _ _ _ hle h => ⟨⟨h.1.1.of_le hle, h.1.2.1.of_le hle, h.1.2.2⟩, h.2⟩) ?_
    (rel_zipIdx (rel_zip hparams (rel_zip hargs hspans)) 0)
  rintro w' ⟨⟨param, arg, span⟩, i⟩ ⟨⟨param', arg', _⟩, _⟩ - ⟨⟨hparam, harg, rfl⟩, rfl⟩
  exact walks_equal _ _ hparam harg

theorem walks_callRule (id : ExprId) (span calleeSpan : Span) (spans : List Span)
    (hcallee : J.R.Alike w a a') (hargs : J.R.AllAlike w as bs) :
    J.Walks (callRule id span calleeSpan a as spans) (callRule id span calleeSpan a' bs spans) w
      J.R.Alike := by
  unfold callRule
  refine walks_query_bind fun _ => walks_query_bind fun _ => ?_
  have hbare := hcallee.bare
  cases hsig : w.1.signature? (w.1.bare a) with
  | none =>
    rw [hbare.signature?_none hsig]
    refine (walks_freshVar w).bind fun w₁ r r' hle₁ hr => ?_
    have hshape : J.R.AlikeSig w₁ { ret := r, params := as } { ret := r', params := bs } :=
      ⟨hr, hargs.of_le hle₁, .nil, rfl, rfl⟩
    refine (walks_builds (couples_function hshape) (builds_intern _) (builds_intern _)).bind
      fun w₂ f f' hle₂ hf => ?_
    refine (walks_equal calleeSpan .general (hbare.of_le (le_trans hle₁ hle₂)) hf).bind
      fun w₃ _ _ hle₃ _ => ?_
    exact walks_pure (hr.of_le (le_trans hle₂ hle₃))
  | some sig =>
    obtain ⟨sig', hsig', halike⟩ := hbare.signature?_some hsig
    rw [hsig']
    dsimp only
    rw [halike.isVariadic, ← halike.params.length_eq, ← hargs.length_eq]
    refine walks_check_bind _ fun w₁ hle₁ => ?_
    refine (walks_argumentsRule .argument (AllAlike.of_le halike.params hle₁)
      (AllAlike.of_le hargs hle₁) spans).bind fun w₂ _ _ hle₂ _ => ?_
    have hle := le_trans hle₁ hle₂
    -- the result is a variable that is asked to be the result of the function
    have hresult : ∀ w₃, w₂ ≤ w₃ → J.Walks
        (do
          let result ← FindM.freshVar
          equal result sig.ret span .callResult
          pure result)
        (do
          let result ← FindM.freshVar
          equal result sig'.ret span .callResult
          pure result) w₃ J.R.Alike := fun w₃ hle₃ =>
      (walks_freshVar w₃).bind fun w₄ r r' hle₄ hr =>
        (walks_equal span .callResult hr
          (halike.ret.of_le (le_trans hle (le_trans hle₃ hle₄)))).bind fun w₅ _ _ hle₅ _ =>
            walks_pure (hr.of_le hle₅)
    rw [show sig'.givens.isEmpty = sig.givens.isEmpty by
      rw [Bool.eq_iff_iff, List.isEmpty_iff_length_eq_zero, List.isEmpty_iff_length_eq_zero,
        halike.givens.length_eq]]
    split
    · exact (walks_site (hbare.of_le hle)).bind fun w₃ _ _ hle₃ _ => hresult w₃ hle₃
    · exact hresult w₂ le_rfl

/-- The variable of an operator, on both sides or on none. -/
theorem walks_operatorVar (traitName : Name) (span : Span) :
    J.Walks (operatorVar traitName span) (operatorVar traitName span) w fun w' =>
      Option.Rel (J.R.Alike w') := by
  unfold operatorVar
  refine walks_of_state fun hsees _ => walks_read_bind ?_
  rw [hsees.traits]
  cases J.context.traits.trait? traitName with
  | none => exact (walks_fault _).bind fun _ _ _ _ _ => walks_pure .none
  | some entry =>
    refine (walks_freshVar w).bind fun w₁ v v' hle₁ hv => ?_
    refine (walks_builds (couples_traitType traitName hv .nil) (builds_intern _)
      (builds_intern _)).bind fun w₂ o o' hle₂ ho => ?_
    refine (walks_oblige span ho).bind fun w₃ _ _ hle₃ _ => ?_
    exact walks_pure (.some (hv.of_le (le_trans hle₂ hle₃)))

theorem walks_binaryRule (op : BinaryOp) (span leftSpan rightSpan : Span)
    (hleft : J.R.Alike w a a') (hright : J.R.Alike w b b') :
    J.Walks (binaryRule op span a b leftSpan rightSpan) (binaryRule op span a' b' leftSpan rightSpan) w
      J.R.Alike := by
  unfold binaryRule
  cases op.traitName? with
  | none =>
    refine (walks_equal leftSpan .condition (J.R.alike_prim w .bool) hleft).bind
      fun w₁ _ _ hle₁ _ => ?_
    refine (walks_equal rightSpan .condition (J.R.alike_prim w₁ .bool) (hright.of_le hle₁)).bind
      fun w₂ _ _ _ _ => ?_
    exact walks_pure (J.R.alike_prim w₂ .bool)
  | some traitName =>
    refine (walks_operatorVar traitName span).bind fun w₁ o o' hle₁ ho => ?_
    cases ho with
    | none => exact walks_pure (J.R.alike_prim w₁ .error)
    | some hv =>
      refine (walks_equal leftSpan .operand hv (hleft.of_le hle₁)).bind fun w₂ _ _ hle₂ _ => ?_
      refine (walks_equal rightSpan .operand (hv.of_le hle₂)
        (hright.of_le (le_trans hle₁ hle₂))).bind fun w₃ _ _ hle₃ _ => ?_
      refine walks_pure ?_
      split
      · exact J.R.alike_prim w₃ .bool
      · exact hv.of_le (le_trans hle₂ hle₃)

theorem walks_unaryRule (op : UnaryOp) (span operandSpan : Span) (h : J.R.Alike w a a') :
    J.Walks (unaryRule op span a operandSpan) (unaryRule op span a' operandSpan) w J.R.Alike := by
  unfold unaryRule
  cases op with
  | neg =>
    refine (walks_operatorVar "Neg" span).bind fun w₁ o o' hle₁ ho => ?_
    cases ho with
    | none => exact walks_pure (J.R.alike_prim w₁ .error)
    | some hv =>
      refine (walks_equal operandSpan .operand hv (h.of_le hle₁)).bind fun w₂ _ _ hle₂ _ => ?_
      exact walks_pure (hv.of_le hle₂)
  | not =>
    refine (walks_equal operandSpan .condition (J.R.alike_prim w .bool) h).bind fun w₁ _ _ _ _ => ?_
    exact walks_pure (J.R.alike_prim w₁ .bool)
  | addressOf => exact walks_builds (couples_pointer h) (builds_intern _) (builds_intern _)
  | deref =>
    refine (walks_freshVar w).bind fun w₁ v v' hle₁ hv => ?_
    refine (walks_builds (couples_pointer hv) (builds_intern _) (builds_intern _)).bind
      fun w₂ p p' hle₂ hp => ?_
    refine (walks_equal operandSpan .operand hp (h.of_le (le_trans hle₁ hle₂))).bind
      fun w₃ _ _ hle₃ _ => ?_
    exact walks_pure (hv.of_le (le_trans hle₂ hle₃))

/-! ## Products -/

/-- Products at fresh variables with their bodies. -/
structure AlikeProduct (R : Renaming) (w : Stores) (p p' : TypeId × ProductBody) : Prop where
  inst : R.Alike w p.1 p'.1
  body : R.AlikeBody w p.2 p'.2

theorem walks_freshProduct {name : Name} {d : TypeId} {params : List TypeId}
    (hd : J.base.Declares name d .product params) :
    J.Walks (freshProduct d) (freshProduct d) w fun w' => Option.Rel (AlikeProduct J.R w') := by
  unfold freshProduct
  refine (walks_build (couplesFrom_instantiateAtFresh J.suits hd)).bind fun w₁ r r' _ hr => ?_
  cases hr with
  | error => exact walks_pure .none
  | ok h =>
    obtain ⟨hv, body, body', hbody, hbody', halike⟩ := h
    refine walks_query_bind fun _ => walks_pure ?_
    rw [hbody, hbody']
    exact .some ⟨hv, halike⟩

/-- The type that a value of a product has: its sum, if it is a tag. -/
theorem AlikeProduct.result {R : Renaming} {p p' : TypeId × ProductBody} (h : AlikeProduct R w p p') :
    R.Alike w (p.2.parent.getD p.1) (p'.2.parent.getD p'.1) := by
  have hparent := h.body.parent
  generalize p.2.parent = o at hparent
  generalize p'.2.parent = o' at hparent
  cases hparent with
  | none => exact h.inst
  | some hs => exact hs

/-- The field of a name, in both products or in none. -/
theorem AlikeProduct.field {R : Renaming} {p p' : TypeId × ProductBody} (h : AlikeProduct R w p p')
    (field : Name) : Option.Rel (R.Alike w)
      ((p.2.fieldIndex? field).bind fun index => p.2.fields[index]?)
      ((p'.2.fieldIndex? field).bind fun index => p'.2.fields[index]?) := by
  have hindex : p'.2.fieldIndex? field = p.2.fieldIndex? field := by
    unfold ProductBody.fieldIndex?
    rw [h.body.fieldNames]
  rw [hindex]
  cases p.2.fieldIndex? field with
  | none => exact .none
  | some index =>
    rw [Option.bind_some, Option.bind_some]
    have hfields := h.body.fields
    generalize p.2.fields = fields at hfields
    generalize p'.2.fields = fields' at hfields
    induction hfields generalizing index with
    | nil => exact .none
    | cons hab _ ih =>
      cases index with
      | zero => exact .some hab
      | succ index => exact ih index

theorem walks_fieldRule (field : Name) (span receiverSpan : Span) (h : J.R.Alike w a a') :
    J.Walks (fieldRule field span a receiverSpan) (fieldRule field span a' receiverSpan) w
      J.R.Alike := by
  unfold fieldRule
  refine walks_query_bind fun hbranches => ?_
  rw [hbranches.productsWithField_eq]
  have hdeclared : ∀ owner ∈ w.1.productsWithField field,
      ∃ name params, J.base.Declares name owner .product params := fun owner howner => by
    obtain ⟨name, params, -, hd, -⟩ :=
      declares_of_mem_productsWithField hbranches.left.2 hbranches.complete_left howner
    exact ⟨name, params, hbranches.left.1.declares_of hbranches.coherent hd⟩
  generalize w.1.productsWithField field = owners at hdeclared
  -- only a single owner decides the type; owners are declared before any body is checked
  match owners with
  | [] => exact walks_fault _
  | [owner] =>
    obtain ⟨name, params, hd⟩ := hdeclared owner (List.mem_singleton_self owner)
    refine (walks_freshProduct hd).bind fun w₁ p p' hle₁ hp => ?_
    cases hp with
    | none => exact walks_pure (J.R.alike_prim w₁ .error)
    | @some p p' hp =>
      have hfield := hp.field field
      dsimp only
      generalize (p.2.fieldIndex? field).bind _ = o at hfield
      generalize (p'.2.fieldIndex? field).bind _ = o' at hfield
      cases hfield with
      | none => exact walks_pure (J.R.alike_prim w₁ .error)
      | some hty =>
        refine (walks_equal receiverSpan .field hp.inst (h.of_le hle₁)).bind fun w₂ _ _ hle₂ _ => ?_
        exact walks_pure (hty.of_le hle₂)
  | owner :: other :: rest =>
    refine walks_query_bind fun _ => ?_
    have hnames : (owner :: other :: rest).filterMap w.2.nominalName? =
        (owner :: other :: rest).filterMap w.1.nominalName? :=
      List.filterMap_congr fun d hd => by
        obtain ⟨name, params, hd⟩ := hdeclared d hd
        exact hbranches.nominalName?_eq hd
    rw [hnames]
    exact walks_fault _

theorem walks_constructRule (name : Name) (span : Span) (spans : List Span)
    (hargs : J.R.AllAlike w as bs) :
    J.Walks (constructRule name span as spans) (constructRule name span bs spans) w J.R.Alike := by
  unfold constructRule
  refine walks_query_bind fun hbranches => ?_
  rw [hbranches.declaredProduct?_eq]
  cases hdecl : w.1.declaredProduct? name with
  | none => exact walks_fault _
  | some d =>
    obtain ⟨params, hd⟩ := hbranches.declares_of_product hdecl
    refine (walks_freshProduct hd).bind fun w₁ p p' hle₁ hp => ?_
    cases hp with
    | none => exact walks_pure (J.R.alike_prim w₁ .error)
    | @some p p' hp =>
      have hargs₁ := AllAlike.of_le hargs hle₁
      dsimp only
      rw [← hp.body.fields.length_eq, ← hargs.length_eq]
      refine walks_check_bind _ fun w₂ hle₂ => ?_
      refine (walks_argumentsRule _ (AllAlike.of_le hp.body.fields hle₂)
        (AllAlike.of_le hargs₁ hle₂) spans).bind fun w₃ _ _ hle₃ _ => ?_
      exact walks_pure (hp.result.of_le (le_trans hle₂ hle₃))

/-! ## Written types -/

variable {ρ : Name → Name}

theorem walks_writtenRule {t : TypeExpr} (h : J.R.Follows ρ t) (span : Span) :
    J.Walks (writtenRule t span) (writtenRule (t.renameVars ρ) span) w J.R.Alike := by
  unfold writtenRule
  refine (walks_build (resolvesAlike J.R J.base span t h w)).bind fun w₁ r r' _ hr => ?_
  cases hr with
  | error hf =>
    subst hf
    exact walks_fault _
  | ok hty => exact walks_pure hty

theorem walks_paramsRule {ps : List Param} (h : ∀ p ∈ ps, ∀ t ∈ p.written, J.R.Follows ρ t) :
    J.Walks (paramsRule ps) (paramsRule (ps.map (Param.renameVars ρ))) w J.R.AllAlike := by
  induction ps generalizing w with
  | nil => exact walks_pure .nil
  | cons p ps ih =>
    obtain ⟨hp, hps⟩ := List.forall_mem_cons.mp h
    rw [List.map_cons, paramsRule, paramsRule]
    -- the same for a parameter with a type and one without
    have hrest : ∀ w₁ ty ty', J.R.Alike w₁ ty ty' → J.Walks
        (do
          FindM.bind p.name ty
          let tys ← paramsRule ps
          return ty :: tys)
        (do
          FindM.bind p.name ty'
          let tys ← paramsRule (ps.map (Param.renameVars ρ))
          return ty' :: tys) w₁ J.R.AllAlike := fun w₁ ty ty' hty =>
      (walks_bindName p.name hty).bind fun w₂ _ _ hle₂ _ =>
        (ih hps).bind fun w₃ tys tys' hle₃ htys =>
          walks_pure (.cons (hty.of_le (le_trans hle₂ hle₃)) htys)
    unfold Param.renameVars
    cases hw : p.written with
    | none => exact (walks_freshVar w).bind fun w₁ ty ty' _ hty => hrest w₁ ty ty' hty
    | some t =>
      exact (walks_writtenRule (hp t hw) p.span).bind fun w₁ ty ty' _ hty => hrest w₁ ty ty' hty

theorem walks_coverageRule (ps : List Pattern) (span : Span) :
    J.Walks (coverageRule ps span) (coverageRule (renamePatterns ρ ps) span) w fun _ _ _ => True := by
  unfold coverageRule
  refine walks_query_bind fun hbranches => ?_
  rw [missingPatterns_renamePatterns, hbranches.missingPatterns_eq]
  split
  · exact (walks_fault _).bind fun _ _ _ _ _ => walks_pure trivial
  · exact walks_pure trivial

end SideBySide

end ConstraintTyping
