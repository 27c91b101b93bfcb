import ConstraintTyping.Infer.Apply
import ConstraintTyping.Proofs.Renaming.Walking
import ConstraintTyping.Proofs.Types.Tables

/-!
# Applying solutions side by side

Solutions that are alike are applied in step: the obligations that are retained are alike, and the
same obligations are reported as unimplemented.  An obligation is reported only when no variable
occurs in it, so that it is reported in the same words.
-/

namespace ConstraintTyping

open Store StoreM ApplyM

namespace Renaming

variable {R : Renaming} {w : Stores}

/-- An obligation without variables is reported in the same words, whatever the renaming. -/
theorem unimplemented_eq_of_not_generic {a b : TypeId} (h : R.Alike w a b)
    (hg : w.1.isGeneric a = false) (span : Span) : unimplemented w.2 b span = unimplemented w.1 a span :=
  unimplemented_eq plain_refl (h.of_not_generic (by
    rw [← isGeneric_iff h.left_lt, hg]
    exact Bool.false_ne_true) refl) span

theorem AlikeObligation.eq_iff {o o' p p' : TypeId × Span} (h : R.AlikeObligation w o o')
    (h' : R.AlikeObligation w p p') : o = p ↔ o' = p' := by
  rw [Prod.ext_iff, Prod.ext_iff, h.1.eq_iff h'.1, h.2, h'.2]

theorem contains_obligation {os os' : List (TypeId × Span)} {o o' : TypeId × Span}
    (hos : List.Forall₂ (R.AlikeObligation w) os os') (ho : R.AlikeObligation w o o') :
    os'.contains o' = os.contains o := by
  rw [Bool.eq_iff_iff, List.contains_iff_mem, List.contains_iff_mem]
  induction hos with
  | nil => simp
  | cons h _ ih => rw [List.mem_cons, List.mem_cons, AlikeObligation.eq_iff ho h, ih]

end Renaming

namespace SideBySide

open Renaming

variable (J : SideBySide) {w w' : Stores} {α β γ δ : Type}

/-- What two applications work with. -/
structure AlikeApplyContext (w : Stores) (c c' : ApplyContext) : Prop where
  traits : c'.traits = c.traits
  impls : ∀ e ∈ c.traits.impls.toList, Same w e.ty e.ty
  bindings : J.R.AlikePairs w c.bindings.pairs c'.bindings.pairs
  recorded : ∀ id : ExprId, Option.Rel (J.R.Alike w) c.recorded[id]? c'.recorded[id]?
  callSites : ∀ id : ExprId, Option.Rel (AlikeSite J.R w) c.callSites[id]? c'.callSites[id]?

/-- The states of two applications in step. -/
structure InApply (c c' : ApplyContext) (w : Stores) (s s' : ApplyState) : Prop where
  stores : J.R.InStepFrom J.base w s.store s'.store
  context : J.AlikeApplyContext w c c'
  retained : J.R.AllAlike w s.applied.retained s'.applied.retained
  reported : List.Forall₂ (J.R.AlikeObligation w) s.reported s'.reported
  log : J.R.AlikeLogs J.logs s.log s'.log

variable {J} {c c' : ApplyContext}

theorem AlikeSite.of_le {R : Renaming} {site site' : CallSite} (h : AlikeSite R w site site')
    (hle : w ≤ w') : AlikeSite R w' site site' :=
  ⟨h.expr, h.callee.of_le hle, h.span⟩

theorem AlikeApplyContext.of_le (h : J.AlikeApplyContext w c c') (hle : w ≤ w') :
    J.AlikeApplyContext w' c c' where
  traits := h.traits
  impls e he := (h.impls e he).of_le hle
  bindings := J.R.stable_alikePairs hle h.bindings
  recorded id := rel_option_mono (h.recorded id) fun _ _ h => h.of_le hle
  callSites id := rel_option_mono (h.callSites id) fun _ _ h => h.of_le hle

theorem InApply.withStore {s s' : ApplyState} {st st' : Store} (h : J.InApply c c' w s s')
    (hle : w ≤ w') (hst : J.R.InStepFrom J.base w' st st') :
    J.InApply c c' w' { s with store := st } { s' with store := st' } where
  stores := hst
  context := h.context.of_le hle
  retained := h.retained.of_le hle
  reported := J.R.stable_alikeObligation.forall₂ hle h.reported
  log := h.log

variable (J c c') in
/-- Two applications go in step, and their results are related. -/
def Applies (x : ApplyM α) (y : ApplyM β) (w : Stores) (Q : Stores → α → β → Prop) : Prop :=
  Coupled (J.InApply c c') (x c) (y c') w Q

section Steps

variable {x : ApplyM α} {y : ApplyM β} {Q : Stores → α → β → Prop} {P : Stores → γ → δ → Prop}

theorem applies_pure {a : α} {b : β} (h : Q w a b) : J.Applies c c' (pure a) (pure b) w Q :=
  coupled_pure h

theorem Applies.bind {f : α → ApplyM γ} {g : β → ApplyM δ} (h : J.Applies c c' x y w Q)
    (hf : ∀ w' a b, w ≤ w' → Q w' a b → J.Applies c c' (f a) (g b) w' P) :
    J.Applies c c' (x >>= f) (y >>= g) w P :=
  Coupled.bind h hf

/-- The states in which the applications go on. -/
theorem applies_get_bind {f : ApplyState → ApplyM γ} {g : ApplyState → ApplyM δ}
    (h : ∀ s s', J.InApply c c' w s s' → J.Applies c c' (f s) (g s') w P) :
    J.Applies c c' (get >>= f) (get >>= g) w P :=
  fun s s' hs => h s s' hs s s' hs

theorem applies_read_bind {f g : ApplyContext → ApplyM γ} {P : Stores → γ → γ → Prop}
    (h : J.AlikeApplyContext w c c' → J.Applies c c' (f c) (g c') w P) :
    J.Applies c c' (read >>= f) (read >>= g) w P :=
  fun s s' hs => h hs.context s s' hs

theorem applies_build {x : StoreM α} {y : StoreM β} (h : J.R.Couples x y w Q) (hx : x.Builds)
    (hy : y.Builds) : J.Applies c c' (ApplyM.build x) (ApplyM.build y) w Q := by
  intro s s' hs
  obtain ⟨w', hle, hst, hQ⟩ := h.from hx hy _ _ hs.stores
  exact ⟨w', hle, hs.withStore hle hst, hQ⟩

theorem applies_solved {ty ty' : TypeId} (h : J.R.Alike w ty ty') :
    J.Applies c c' (solved ty) (solved ty') w J.R.Alike :=
  applies_read_bind fun hc =>
    applies_build (couples_apply hc.bindings h) (builds_apply _ _) (builds_apply _ _)

end Steps

/-! ## Obligations -/

theorem applies_discharge {o o' : TypeId} (span : Span) (ho : J.R.Alike w o o') :
    J.Applies c c' (discharge o span) (discharge o' span) w fun _ _ _ => True := by
  unfold discharge
  refine (applies_solved ho).bind fun w₁ o o' _ ho => applies_get_bind fun s s' hs => ?_
  have hleft := hs.stores.left
  have hright := hs.stores.right
  dsimp only
  rw [← hleft, ← hright, ho.hasError_eq, ho.isGeneric_eq]
  split
  · exact applies_pure trivial
  split
  · refine coupled_modify fun t t' ht => ?_
    rw [ht.retained.contains_eq ho]
    split
    · exact ht
    · exact ⟨ht.stores, ht.context, List.rel_append ht.retained (.cons ho .nil), ht.reported, ht.log⟩
  · next hg =>
    have hg : w₁.1.isGeneric o = false := by simpa using hg
    refine applies_read_bind fun hc => ?_
    rw [hc.traits]
    refine (applies_build (couples_isImplemented (fun e he => (hc.impls e he).copied) ho hg) (builds_isImplemented _ _)
      (builds_isImplemented _ _)).bind fun w₂ met met' hle₂ hmet => ?_
    subst hmet
    split
    · refine coupled_modify fun t t' ht => ?_
      have ho₂ := ho.of_le hle₂
      have hg₂ : w₂.1.isGeneric o = false := by rw [isGeneric_of_le hle₂.1 ho.left_lt, hg]
      have hobligation : J.R.AlikeObligation w₂ (o, span) (o', span) := ⟨ho₂, rfl⟩
      rw [contains_obligation ht.reported hobligation]
      split
      · exact ht
      · refine ⟨ht.stores, ht.context, ht.retained, .cons ⟨ho₂, rfl⟩ ht.reported, ?_⟩
        have hfault := unimplemented_eq_of_not_generic ho₂ hg₂ span
        rw [ht.stores.left, ht.stores.right] at hfault
        dsimp only
        rw [hfault]
        exact ht.log.report (alikeFault_refl _ _)
    · exact applies_pure trivial

theorem applies_forM {r : Stores → α → β → Prop} {f : α → ApplyM PUnit} {g : β → ApplyM PUnit}
    (hr : Stable r)
    (hf : ∀ w' a b, w ≤ w' → r w' a b → J.Applies c c' (f a) (g b) w' fun _ _ _ => True)
    {xs : List α} {ys : List β} (h : List.Forall₂ (r w) xs ys) :
    J.Applies c c' (xs.forM f) (ys.forM g) w fun _ _ _ => True :=
  coupled_forM_read hr hf h

theorem applies_settleSite {site site' : Option CallSite}
    (h : Option.Rel (AlikeSite J.R w) site site') :
    J.Applies c c' (settleSite site) (settleSite site') w fun _ _ _ => True := by
  cases h with
  | none => exact applies_pure trivial
  | @some site site' h =>
    refine (applies_solved h.callee).bind fun w₁ f f' _ hf => applies_get_bind fun s s' hs => ?_
    rw [← hs.stores.left, ← hs.stores.right, h.span]
    cases hsig : w₁.1.signature? f with
    | none =>
      rw [hf.signature?_none hsig]
      exact applies_pure trivial
    | some sig =>
      obtain ⟨sig', hsig', halike⟩ := hf.signature?_some hsig
      rw [hsig']
      exact applies_forM J.R.stable_alike (fun _ _ _ _ ho => applies_discharge site.span ho)
        halike.givens

/-- The solved type of an expression goes on record on both sides. -/
theorem InApply.recordSolved {s s' : ApplyState} (h : J.InApply c c' w s s') (id : ExprId) :
    ∃ w', w ≤ w' ∧ J.InApply c c' w' (recordSolved c id s) (recordSolved c' id s') := by
  have hrecorded := h.context.recorded id
  unfold ApplyM.recordSolved
  generalize c.recorded[id]? = o at hrecorded
  generalize c'.recorded[id]? = o' at hrecorded
  cases hrecorded with
  | none => exact ⟨w, le_rfl, h⟩
  | some hty =>
    obtain ⟨w', hle, hst, -⟩ := (couples_apply h.context.bindings hty).from (builds_apply _ _)
      (builds_apply _ _) _ _ h.stores
    have hs := h.withStore hle hst
    exact ⟨w', hle, hs.stores, hs.context, hs.retained, hs.reported, hs.log⟩

theorem applies_visit (id : ExprId) :
    J.Applies c c' (visit id) (visit id) w fun _ _ _ => True := by
  intro s s' hs
  obtain ⟨w₁, hle₁, hs₁⟩ := hs.recordSolved id
  obtain ⟨w₂, hle₂, hs₂, -⟩ := applies_settleSite (hs₁.context.callSites id) _ _ hs₁
  rw [← visit_apply, ← visit_apply] at hs₂
  exact ⟨w₂, le_trans hle₁ hle₂, hs₂, trivial⟩

/-- Solutions that are alike are applied in step. -/
theorem applies_applyTo (exprs : List ExprId) {os os' : List (TypeId × Span)}
    (hos : List.Forall₂ (J.R.AlikeObligation w) os os') :
    J.Applies c c' (applyTo exprs os) (applyTo exprs os') w fun _ _ _ => True := by
  unfold applyTo
  refine (applies_forM (r := fun _ id id' => id' = id) (fun _ _ _ _ _ h => h) ?_
    (List.forall₂_same.mpr fun _ _ => rfl)).bind fun w₁ _ _ hle₁ _ => ?_
  · rintro w' id _ - rfl
    exact applies_visit _
  · refine applies_forM J.R.stable_alikeObligation ?_ (J.R.stable_alikeObligation.forall₂ hle₁ hos)
    rintro w' ⟨o, span⟩ ⟨o', _⟩ - ⟨ho, rfl⟩
    exact applies_discharge _ ho

theorem AlikeFinding.callSites_rel {found found' : Finding} (h : AlikeFinding J.R w found found')
    (id : ExprId) : Option.Rel (AlikeSite J.R w)
      (Std.HashMap.ofList (found.callSites.toList.map fun site => (site.expr, site)))[id]?
      (Std.HashMap.ofList (found'.callSites.toList.map fun site => (site.expr, site)))[id]? := by
  rw [ofList_eq_enterAll, ofList_eq_enterAll]
  refine rel_enterAll (fun id => by simp [Option.rel_none_none]) ?_ id
  rw [List.forall₂_map_left_iff, List.forall₂_map_right_iff]
  exact h.callSites.imp fun _ _ hsite => ⟨hsite.expr, hsite⟩

/-- Findings and solutions that are alike are applied in step. -/
theorem inApply_runOn {traits traits' : TraitTable} {found found' : Finding} {sol sol' : Solution}
    {st st' : Store} {log log' : DiagnosticLog} (exprs : List ExprId) (htraits : traits' = traits)
    (himpls : ∀ e ∈ traits.impls.toList, Same w e.ty e.ty) (hfound : AlikeFinding J.R w found found')
    (hsol : J.R.AlikeSolution w sol sol') (hst : J.R.InStepFrom J.base w st st')
    (hlog : J.R.AlikeLogs J.logs log log') : ∃ w', w ≤ w' ∧ ∃ c c', J.InApply c c' w'
      (runOn traits found sol exprs st log) (runOn traits' found' sol' exprs st' log') := by
  subst htraits
  have hcontext : J.AlikeApplyContext w
      { traits := traits', bindings := sol.bindings, recorded := found.exprTypes, callSites :=
          Std.HashMap.ofList (found.callSites.toList.map fun site => (site.expr, site)) }
      { traits := traits', bindings := sol'.bindings, recorded := found'.exprTypes, callSites :=
          Std.HashMap.ofList (found'.callSites.toList.map fun site => (site.expr, site)) } :=
    ⟨rfl, himpls, hsol.bindings, hfound.exprTypes, hfound.callSites_rel⟩
  obtain ⟨w', hle, hin, -⟩ := applies_applyTo exprs hsol.obligations
    { store := st, log } { store := st', log := log' } ⟨hst, hcontext, .nil, .nil, hlog⟩
  exact ⟨w', hle, _, _, hin⟩

end SideBySide

end ConstraintTyping
