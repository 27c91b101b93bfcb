import ConstraintTyping.Proofs.Renaming.Rewriting
import ConstraintTyping.Proofs.Solve.Nested

/-!
# Solving side by side

The unifier looks at types only in ways that have the same answer for types that are alike.  So two
lists of constraints that are alike are solved by the same steps, within the same budget: the
solutions are alike, and the same constraints fail with errors that are alike.  In the same way an
implementation provides both or none of two obligations that are alike.
-/

namespace ConstraintTyping

open Store StoreM

namespace Renaming

variable {R : Renaming} {w w' : Stores} {a a' b b' : TypeId} {as bs : List TypeId}
  {ps qs : List (TypeId × TypeId)}

/-- Errors of the same kind about types that are alike. -/
inductive AlikeError (R : Renaming) (w : Stores) : UnifyError → UnifyError → Prop
  | mismatch {a a' b b' : TypeId} (ha : R.Alike w a a') (hb : R.Alike w b b') :
      AlikeError R w (.mismatch a b) (.mismatch a' b')
  | infinite {a a' b b' : TypeId} (ha : R.Alike w a a') (hb : R.Alike w b b') :
      AlikeError R w (.infinite a b) (.infinite a' b')
  | arity (expected found : Nat) (kind : ArityKind) :
      AlikeError R w (.arity expected found kind) (.arity expected found kind)
  | stepLimit (limit : Nat) : AlikeError R w (.stepLimit limit) (.stepLimit limit)

theorem AlikeError.of_le {e e' : UnifyError} (h : R.AlikeError w e e') (hle : w ≤ w') :
    R.AlikeError w' e e' := by
  cases h with
  | mismatch ha hb => exact .mismatch (ha.of_le hle) (hb.of_le hle)
  | infinite ha hb => exact .infinite (ha.of_le hle) (hb.of_le hle)
  | arity expected found kind => exact .arity expected found kind
  | stepLimit limit => exact .stepLimit limit

/-- Failures that are alike. -/
structure AlikeFailure (R : Renaming) (w : Stores) (f f' : UnifyFailure) : Prop where
  error : R.AlikeError w f.error f'.error
  found : R.AlikePairs w f.found.pairs f'.found.pairs

/-- Steps that are alike. -/
inductive AlikeStep (R : Renaming) (w : Stores) : UnifyStep → UnifyStep → Prop
  | bind {a a' b b' : TypeId} (ha : R.Alike w a a') (hb : R.Alike w b b') :
      AlikeStep R w (.bind a b) (.bind a' b')
  | split {ps qs : List (TypeId × TypeId)} (h : R.AlikePairs w ps qs) :
      AlikeStep R w (.split ps) (.split qs)

theorem alikePairs_zip {cs ds : List TypeId} (h : R.AllAlike w as bs) (h' : R.AllAlike w cs ds) :
    R.AlikePairs w (as.zip cs) (bs.zip ds) :=
  rel_zip h h'

/-! ## One step -/

theorem Alike.decompose (ha : R.Alike w a a') (hb : R.Alike w b b') :
    RelExcept (R.AlikeError w) (R.AlikePairs w) (w.1.decompose a b) (w.2.decompose a' b') := by
  have hmismatch : RelExcept (R.AlikeError w) (R.AlikePairs w) (.error (.mismatch a b))
      (.error (.mismatch a' b')) := .error (.mismatch ha hb)
  have hzip : ∀ (kind : ArityKind) {xs xs' ys ys' : List TypeId}, R.AllAlike w xs xs' →
      R.AllAlike w ys ys' → RelExcept (R.AlikeError w) (R.AlikePairs w)
        (if xs.length = ys.length then .ok (xs.zip ys) else .error (.arity xs.length ys.length kind))
        (if xs'.length = ys'.length then .ok (xs'.zip ys')
          else .error (.arity xs'.length ys'.length kind)) := by
    intro kind xs xs' ys ys' hxs hys
    rw [hxs.length_eq, hys.length_eq]
    split
    · exact .ok (alikePairs_zip hxs hys)
    · exact .error (.arity _ _ kind)
  have hsa := ha.shape
  have hsb := hb.shape
  unfold Store.decompose
  generalize w.1.shape a = s at hsa
  generalize w.2.shape a' = s' at hsa
  generalize w.1.shape b = t at hsb
  generalize w.2.shape b' = t' at hsb
  cases hsa <;> cases hsb
  case pointer.pointer hx _ _ hy => exact .ok (.cons ⟨hx, hy⟩ .nil)
  case array.array hx m _ _ hy n =>
    dsimp only
    split
    · exact .ok (.cons ⟨hx, hy⟩ .nil)
    · exact hmismatch
  case tuple.tuple hxs _ _ hys => exact hzip .tuple hxs hys
  case function.function hret hparams _ isMeta isVariadic _ _ _ _ _ _ hret' hparams' _ isMeta' isVariadic' =>
    dsimp only
    rw [hparams.length_eq, hparams'.length_eq]
    split
    · exact hmismatch
    · split
      · exact .error (.arity _ _ .function)
      · exact .ok (List.rel_append (alikePairs_zip hparams hparams') (.cons ⟨hret, hret'⟩ .nil))
  case product.product n _ _ hxs m _ _ hys =>
    dsimp only
    split
    · exact hzip .typeArgs hxs hys
    · exact hmismatch
  case sum.sum n _ _ hxs m _ _ hys =>
    dsimp only
    split
    · exact hzip .typeArgs hxs hys
    · exact hmismatch
  case trait.trait n _ _ _ _ hs hxs m _ _ _ _ ht hys =>
    dsimp only
    split
    · exact (hzip .typeArgs hxs hys).map fun _ _ hargs => .cons ⟨hs, ht⟩ hargs
    · exact hmismatch
  all_goals exact hmismatch

theorem Alike.bindStep (ha : R.Alike w a a') (hb : R.Alike w b b') (hv : w.1.isVar a = true) :
    RelExcept (R.AlikeError w) (R.AlikeStep w) (w.1.bindStep a b) (w.2.bindStep a' b') := by
  unfold Store.bindStep
  rw [ha.occurs_eq hb hv]
  split
  · exact .error (.infinite ha hb)
  · exact .ok (.bind ha hb)

/-- The steps that two pairs of types ask for are alike. -/
theorem Alike.unifyStep (ha : R.Alike w a a') (hb : R.Alike w b b') :
    RelExcept (R.AlikeError w) (R.AlikeStep w) (w.1.unifyStep a b) (w.2.unifyStep a' b') := by
  have ha := ha.bare
  have hb := hb.bare
  have hsame : decide (w.2.bare a' = w.2.bare b') = decide (w.1.bare a = w.1.bare b) :=
    decide_eq_decide.mpr (ha.eq_iff hb).symm
  unfold Store.unifyStep
  dsimp only
  rw [ha.isError_eq, hb.isError_eq, ha.isVar_eq, hb.isVar_eq, ha.isGeneric_eq, hb.isGeneric_eq, hsame]
  split
  · exact .ok (.split .nil)
  split
  · exact ha.bindStep hb ‹_›
  split
  · exact hb.bindStep ha ‹_›
  split
  · exact .error (.mismatch ha hb)
  · exact (ha.decompose hb).map fun _ _ h => .split h

/-! ## Unification -/

/-- Outcomes of a unification that are alike. -/
abbrev AlikeOutcome (R : Renaming) (w : Stores) :
    Except UnifyFailure Bindings → Except UnifyFailure Bindings → Prop :=
  RelExcept (R.AlikeFailure w) fun found found' => R.AlikePairs w found.pairs found'.pairs

/-- Pairs that are alike are made equal by the same steps, whatever the budget. -/
theorem couples_settle (limit budget : Nat) {found found' : Bindings}
    (hps : R.AlikePairs w ps qs) (hfound : R.AlikePairs w found.pairs found'.pairs) :
    R.Couples (settle limit budget ps found) (settle limit budget qs found') w
      R.AlikeOutcome := by
  induction budget generalizing w ps qs found found' with
  | zero =>
    cases hps with
    | nil => exact coupled_pure (.ok hfound)
    | cons hp hps =>
      -- out of steps on both sides, but the pair is read before that is noticed
      refine (couples_apply hfound hp.1).bind fun w₁ x x' hle₁ _ => ?_
      have hfound₁ := R.stable_alikePairs hle₁ hfound
      refine (couples_apply hfound₁ (hp.2.of_le hle₁)).bind fun w₂ y y' hle₂ _ => ?_
      exact coupled_pure (.error ⟨.stepLimit limit, R.stable_alikePairs hle₂ hfound₁⟩)
  | succ budget ih =>
    cases hps with
    | nil => exact coupled_pure (.ok hfound)
    | cons hp hps =>
      rw [settle, settle]
      refine (couples_apply hfound hp.1).bind fun w₁ x x' hle₁ hx => ?_
      have hfound₁ := R.stable_alikePairs hle₁ hfound
      refine (couples_apply hfound₁ (hp.2.of_le hle₁)).bind fun w₂ y y' hle₂ hy => ?_
      have hfound₂ := R.stable_alikePairs hle₂ hfound₁
      have hrest := R.stable_alikePairs (le_trans hle₁ hle₂) hps
      refine couples_get_bind ?_
      -- a step does the same on both sides: it fails, binds a variable or splits the pair
      have hstep := (hx.of_le hle₂).unifyStep hy
      generalize w₂.1.unifyStep x y = step at hstep
      generalize w₂.2.unifyStep x' y' = step' at hstep
      cases hstep with
      | error herror => exact coupled_pure (.error ⟨herror, hfound₂⟩)
      | ok hstep =>
        cases hstep with
        | bind hv hty => exact ih hrest (.cons ⟨hv, hty⟩ hfound₂)
        | split hpairs => exact ih (List.rel_append hpairs hrest) hfound₂

theorem couples_unify (limit : Nat) (ha : R.Alike w a a') (hb : R.Alike w b b') :
    R.Couples (unify limit a b) (unify limit a' b') w R.AlikeOutcome := by
  rintro _ _ ⟨rfl, rfl, hlock⟩
  rw [unify_eq_settle limit ha.left_lt hb.left_lt, unify_eq_settle limit ha.right_lt hb.right_lt]
  exact couples_settle limit limit (.cons ⟨ha, hb⟩ .nil) .nil _ _ ⟨rfl, rfl, hlock⟩

/-! ## Constraints -/

/-- Constraints of the same kind, at the same place and for the same reason, on types that are
alike. -/
inductive AlikeConstraint (R : Renaming) (w : Stores) : Constraint → Constraint → Prop
  | equal {a a' b b' : TypeId} (ha : R.Alike w a a') (hb : R.Alike w b b') (span : Span)
      (reason : Reason) : AlikeConstraint R w (.equal a b span reason) (.equal a' b' span reason)
  | implemented {a a' : TypeId} (ha : R.Alike w a a') (span : Span) :
      AlikeConstraint R w (.implemented a span) (.implemented a' span)

theorem stable_alikeConstraint (R : Renaming) : Stable R.AlikeConstraint := by
  intro w w' c c' hle h
  cases h with
  | equal ha hb span reason => exact .equal (ha.of_le hle) (hb.of_le hle) span reason
  | implemented ha span => exact .implemented (ha.of_le hle) span

/-- Failed constraints that are alike. -/
structure AlikeUnsolved (R : Renaming) (w : Stores) (f f' : ConstraintFailure) : Prop where
  error : R.AlikeError w f.error f'.error
  lhs : R.Alike w f.lhs f'.lhs
  rhs : R.Alike w f.rhs f'.rhs
  span : f'.span = f.span
  reason : f'.reason = f.reason

theorem stable_alikeUnsolved (R : Renaming) : Stable R.AlikeUnsolved :=
  fun _ _ _ _ hle h => ⟨h.error.of_le hle, h.lhs.of_le hle, h.rhs.of_le hle, h.span, h.reason⟩

/-- Obligations that are alike, at the same place. -/
abbrev AlikeObligation (R : Renaming) (w : Stores) (o o' : TypeId × Span) : Prop :=
  R.Alike w o.1 o'.1 ∧ o'.2 = o.2

theorem stable_alikeObligation (R : Renaming) : Stable R.AlikeObligation :=
  fun _ _ _ _ hle h => ⟨h.1.of_le hle, h.2⟩

/-- Solutions that are alike. -/
structure AlikeSolution (R : Renaming) (w : Stores) (sol sol' : Solution) : Prop where
  bindings : R.AlikePairs w sol.bindings.pairs sol'.bindings.pairs
  obligations : List.Forall₂ (R.AlikeObligation w) sol.obligations sol'.obligations
  failures : List.Forall₂ (R.AlikeUnsolved w) sol.failures sol'.failures
  failureCount : sol'.failureCount = sol.failureCount

theorem AlikeSolution.of_le {sol sol' : Solution} (h : R.AlikeSolution w sol sol') (hle : w ≤ w') :
    R.AlikeSolution w' sol sol' :=
  ⟨R.stable_alikePairs hle h.bindings, R.stable_alikeObligation.forall₂ hle h.obligations,
    R.stable_alikeUnsolved.forall₂ hle h.failures, h.failureCount⟩

theorem couples_solveOne (limit : Nat) {sol sol' : Solution} {c c' : Constraint}
    (hsol : R.AlikeSolution w sol sol') (hc : R.AlikeConstraint w c c') :
    R.Couples (solveOne limit sol c) (solveOne limit sol' c') w R.AlikeSolution := by
  cases hc with
  | implemented ha span =>
    exact coupled_pure ⟨hsol.bindings, List.rel_append hsol.obligations (.cons ⟨ha, rfl⟩ .nil),
      hsol.failures, hsol.failureCount⟩
  | equal ha hb span reason =>
    unfold solveOne
    refine (couples_apply hsol.bindings ha).bind fun w₁ l l' hle₁ hl => ?_
    have hsol₁ := hsol.of_le hle₁
    refine (couples_apply hsol₁.bindings (hb.of_le hle₁)).bind fun w₂ r r' hle₂ hr => ?_
    have hsol₂ := hsol₁.of_le hle₂
    refine (couples_unify limit (hl.of_le hle₂) hr).bind fun w₃ res res' hle₃ hres => ?_
    have hsol₃ := hsol₂.of_le hle₃
    have hle := le_trans (le_trans hle₁ hle₂) hle₃
    cases hres with
    | ok hfound =>
      exact coupled_pure ⟨List.rel_append hfound hsol₃.bindings, hsol₃.obligations, hsol₃.failures,
        hsol₃.failureCount⟩
    | error hfail =>
      have hknown := List.rel_append hfail.found hsol₃.bindings
      refine (couples_apply hknown (ha.of_le hle)).bind fun w₄ x x' hle₄ hx => ?_
      have hknown₄ := R.stable_alikePairs hle₄ hknown
      refine (couples_apply hknown₄ (hb.of_le (le_trans hle hle₄))).bind fun w₅ y y' hle₅ hy => ?_
      have hsol₅ := hsol₃.of_le (le_trans hle₄ hle₅)
      exact coupled_pure ⟨hsol₅.bindings, hsol₅.obligations, List.rel_append hsol₅.failures
        (.cons ⟨hfail.error.of_le (le_trans hle₄ hle₅), hx.of_le hle₅, hy, rfl, rfl⟩ .nil),
        congrArg (· + 1) hsol₅.failureCount⟩

/-- Constraints that are alike have solutions that are alike. -/
theorem couples_solve (limit : Nat) {cs cs' : List Constraint}
    (h : List.Forall₂ (R.AlikeConstraint w) cs cs') :
    R.Couples (solve limit cs) (solve limit cs') w R.AlikeSolution :=
  coupled_foldlM (q := R.AlikeSolution) R.stable_alikeConstraint
    (fun _ _ _ _ _ _ hsol hc => couples_solveOne limit hsol hc) ⟨.nil, .nil, .nil, rfl⟩ h

/-! ## Implementations -/

/-- A type of one store and a type of the other that are the same, no variables and without
qualifiers. -/
structure Same (w : Stores) (a b : TypeId) : Prop where
  alike : refl.Alike w a b
  not_var : w.1.isVar a = false
  not_qualified : (w.1.shape a).isQualified = false

theorem Same.of_le (h : Same w a b) (hle : w ≤ w') : Same w' a b where
  alike := h.alike.of_le hle
  not_var := by rw [isVar_of_le hle.1 h.alike.left_lt, h.not_var]
  not_qualified := by rw [shape_of_le hle.1 h.alike.left_lt, h.not_qualified]

/-- A type that both stores hold, of which they make copies that are alike. -/
structure Copied (R : Renaming) (w : Stores) (a : TypeId) : Prop where
  alike : ∃ R₀ : Renaming, R₀.Alike w a a
  copies : ∀ w', w ≤ w' → R.Couples (instantiateFresh a) (instantiateFresh a) w' R.Alike

theorem Copied.of_le (h : R.Copied w a) (hle : w ≤ w') : R.Copied w' a where
  alike := h.alike.imp fun _ halike => halike.of_le hle
  copies w'' hle' := h.copies w'' (le_trans hle hle')

theorem Same.copied (h : Same w a a) : R.Copied w a where
  alike := ⟨refl, h.alike⟩
  copies _ hle := couples_instantiateFresh (h.of_le hle).alike (h.of_le hle).not_var
    (h.of_le hle).not_qualified

theorem Alike.copied (h : R.Alike w a a) : R.Copied w a where
  alike := ⟨R, h⟩
  copies _ hle := couples_copy (h.of_le hle)

/-- The same implementations provide both or none of two obligations without variables that are
alike. -/
theorem couples_coveredBy (limit : Nat) {impls : List ImplEntry}
    (himpls : ∀ e ∈ impls, R.Copied w e.ty) (h : R.Alike w a b) (hg : w.1.isGeneric a = false) :
    R.Couples (TraitTable.coveredBy limit a impls) (TraitTable.coveredBy limit b impls) w
      fun _ x y => x = y := by
  induction impls generalizing w with
  | nil => exact coupled_pure rfl
  | cons entry rest ih =>
    obtain ⟨hentry, hrest⟩ := List.forall_mem_cons.mp himpls
    obtain ⟨R₀, halike⟩ := hentry.alike
    have hsame : entry.ty = a ↔ entry.ty = b := by
    -- an obligation without variables stands for itself, so it is the entry on both sides or on none
      refine halike.eq_iff (h.of_not_generic ?_ R₀)
      rw [← isGeneric_iff h.left_lt, hg]
      exact Bool.false_ne_true
    have hlater : ∀ {w'}, w ≤ w' → R.Couples (TraitTable.coveredBy limit a rest)
        (TraitTable.coveredBy limit b rest) w' fun _ x y => x = y := fun {w'} hle =>
      ih (fun e he => (hrest e he).of_le hle) (h.of_le hle) (by rw [isGeneric_of_le hle.1 h.left_lt, hg])
    unfold TraitTable.coveredBy
    by_cases heq : entry.ty = a
    · rw [if_pos heq, if_pos (hsame.mp heq)]
      exact coupled_pure rfl
    rw [if_neg heq, if_neg fun heq' => heq (hsame.mpr heq')]
    refine couples_get_bind ?_
    rw [halike.isGeneric_eq]
    split
    swap
    · exact hlater le_rfl
    -- the copy stays behind in the stores, whether it unifies or not
    refine Coupled.bind (hentry.copies w le_rfl) fun w₁ c c' hle₁ hc => ?_
    refine (couples_unify limit hc (h.of_le hle₁)).bind fun w₂ res res' hle₂ hres => ?_
    cases hres with
    | ok => exact coupled_pure rfl
    | error => exact hlater (le_trans hle₁ hle₂)

theorem couples_isImplemented {traits : TraitTable}
    (himpls : ∀ e ∈ traits.impls.toList, R.Copied w e.ty) (h : R.Alike w a b)
    (hg : w.1.isGeneric a = false) :
    R.Couples (traits.isImplemented a) (traits.isImplemented b) w fun _ x y => x = y := by
  unfold TraitTable.isImplemented
  refine couples_get_bind ?_
  have hshape := h.shape
  generalize w.1.shape a = s at hshape
  generalize w.2.shape b = t at hshape
  cases hshape with
  | trait name =>
    exact couples_coveredBy _ (fun e he => himpls e (List.mem_of_mem_filter he)) h hg
  | _ => exact coupled_pure rfl

end Renaming

end ConstraintTyping
