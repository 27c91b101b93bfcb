import ConstraintTyping.Proofs.Check.Generalize
import ConstraintTyping.Proofs.Infer.Group
import ConstraintTyping.Proofs.Renaming.Solving

/-!
# Generalizing side by side

The variables of a solved function type are renamed to letters in the order in which they appear.
Two solved types that are alike have their variables in the same order, so that their general forms
are the same type, with the same names for the same variables.
-/

namespace ConstraintTyping

open Store StoreM TypeTree

namespace Renaming

variable {R R' : Renaming} {w w' : Stores} {a b ty ty' : TypeId} {as bs os os' : List TypeId}

/-! ## Open obligations -/

theorem any_contains_eq {as' bs' : List TypeId} (h : R.AllAlike w as bs) (h' : R.AllAlike w as' bs') :
    bs'.any bs.contains = as'.any as.contains := by
  induction h' with
  | nil => rfl
  | cons hab _ ih => rw [List.any_cons, List.any_cons, h.contains_eq hab, ih]

theorem AllAlike.collectAll (h : R.AllAlike w as bs) :
    R.AllAlike w (as.flatMap w.1.collectVars) (bs.flatMap w.2.collectVars) := by
  induction h with
  | nil => exact .nil
  | cons hab _ ih =>
    rw [List.flatMap_cons, List.flatMap_cons]
    exact List.rel_append hab.collectVars ih

/-- The obligations that a member of a group asks of its callers are alike. -/
theorem Alike.givensFor (h : R.Alike w ty ty') (hmembers : R.AllAlike w as bs)
    (hretained : R.AllAlike w os os') :
    R.AllAlike w (w.1.givensFor ty as os) (w.2.givensFor ty' bs os') := by
  unfold Store.givensFor
  refine List.rel_filter (fun o o' ho => ?_) hretained
  dsimp only
  rw [any_contains_eq h.collectVars ho.collectVars,
    any_contains_eq hmembers.collectAll ho.collectVars]

/-! ## Function types -/

/-- A function type stays one when its variables are replaced. -/
theorem signature?_mapVars {st : Store} {f : TypeId → TypeId} {sig : Signature TypeId}
    (hf : ∀ v, st.isVar v = true → f v < st.size) (hsig : st.signature? ty = some sig) :
    ∃ sig', (mapVars f ty st).2.signature? (mapVars f ty st).1 = some sig' := by
  have hshape := shape_of_signature? hsig
  have hty : ty < st.size := lt_size_of_shape_ne (by rw [hshape]; exact nofun)
  have hq := isQualified_mapVars f hty (by rw [Store.isVar, hshape]; rfl) (by rw [hshape]; rfl)
  obtain ⟨-, -, htree⟩ := yields_mapVars (f := f) (σ := st.readVars f)
    (fun v x _ hv => ⟨hf v (by rw [Store.isVar, hv]; rfl), (readVars_eq hv).symm⟩) hty
  rw [tree_of_not_qualified hq, tree_of_not_qualified (by rw [hshape]; rfl), hshape,
    subst_mk rfl] at htree
  have hmap := TypeTree.mk.inj htree
  rw [Store.signature?]
  cases hs : (mapVars f ty st).2.shape (mapVars f ty st).1 with
  | function sig' => exact ⟨sig', rfl⟩
  | _ => rw [hs] at hmap; cases hmap

/-- Function types that are alike. -/
structure AlikeFunction (R : Renaming) (w : Stores) (a b : TypeId) : Prop where
  alike : R.Alike w a b
  signature : ∃ sig, w.1.signature? a = some sig

namespace AlikeFunction

theorem of_le (h : R.AlikeFunction w a b) (hle : w ≤ w') : R.AlikeFunction w' a b where
  alike := h.alike.of_le hle
  signature := by
    obtain ⟨sig, hsig⟩ := h.signature
    exact ⟨sig, (FindM.signature?_of_le hle.1 h.alike.left_lt).trans hsig⟩

theorem not_var (h : R.AlikeFunction w a b) : w.1.isVar a = false := by
  obtain ⟨sig, hsig⟩ := h.signature
  rw [Store.isVar, shape_of_signature? hsig]
  rfl

theorem not_qualified (h : R.AlikeFunction w a b) : (w.1.shape a).isQualified = false := by
  obtain ⟨sig, hsig⟩ := h.signature
  rw [shape_of_signature? hsig]
  rfl

end AlikeFunction

theorem stable_alikeFunction (R : Renaming) : Stable R.AlikeFunction := fun _ _ _ _ hle h => h.of_le hle

theorem couples_replaceVar_function {v v' r r' : TypeId} (h : R'.AlikeFunction w a b)
    (hv : R'.Alike w v v') (hr : R'.Alike w r r') :
    R.Couples (replaceVar a v r) (replaceVar b v' r') w R'.AlikeFunction := by
  refine (couples_replaceVar h.alike hv hr).and_run.mono fun w₁ c d _ ⟨hcd, hw₁, hc, _⟩ => ⟨hcd, ?_⟩
  obtain ⟨sig, hsig⟩ := h.signature
  rw [hw₁, hc]
  refine signature?_mapVars (fun u hu => ?_) hsig
  split
  · exact hr.left_lt
  · exact lt_size_of_isVar hu

/-- A solution makes function types of function types. -/
theorem couples_apply_function {bs bs' : Bindings} (hbs : R'.AlikePairs w bs.pairs bs'.pairs)
    (h : R'.AlikeFunction w a b) : R.Couples (bs.apply a) (bs'.apply b) w R'.AlikeFunction := by
  unfold Bindings.apply
  refine couples_get_bind ?_
  rw [h.alike.isGeneric_eq]
  split
  · refine coupled_foldlM (r := R'.AlikePair) R'.stable_alikePair ?_ h (List.rel_reverse hbs)
    rintro w' c d ⟨v, r⟩ ⟨v', r'⟩ - hcd ⟨hv, hr⟩
    exact couples_replaceVar_function hcd hv hr
  · exact coupled_pure h

theorem couples_substituteAll_function {ps qs : List (TypeId × TypeId)} (h : R'.AlikeFunction w a b)
    (hps : List.Forall₂ (fun p q => R'.Alike w p.1 q.1 ∧ refl.Alike w p.2 q.2) ps qs)
    (hcovers : ∀ v x, w.1.shape v = .var x → (w.1.tree a).Occurs x → ∃ c, ps.lookup v = some c) :
    R.Couples (substituteAll ps a) (substituteAll qs b) w refl.AlikeFunction := by
  refine (couples_substituteAll h.alike h.not_var h.not_qualified hps hcovers).and_run.mono
    fun w₁ c d _ ⟨hcd, hw₁, hc, _⟩ => ⟨hcd, ?_⟩
  obtain ⟨sig, hsig⟩ := h.signature
  rw [hw₁, hc]
  unfold substituteAll
  split
  · exact ⟨sig, hsig⟩
  refine signature?_mapVars (fun u hu => ?_) hsig
  cases hl : ps.lookup u with
  | none => exact lt_size_of_isVar hu
  | some c =>
    obtain ⟨l₁, l₂, rfl, -⟩ := List.lookup_eq_some_iff.mp hl
    obtain ⟨q, -, hpq⟩ := exists_mem_of_forall₂ hps.flip
      (List.mem_append_right l₁ List.mem_cons_self)
    exact hpq.2.left_lt

/-! ## General forms -/

theorem AllAlike.allGivens (h : R.AllAlike w as bs) (hos : R.AllAlike w os os') :
    R.AllAlike w (StoreM.allGivens as os) (StoreM.allGivens bs os') := by
  unfold StoreM.allGivens
  induction hos generalizing as bs with
  | nil => exact h
  | cons ho _ ih =>
    rw [List.foldl_cons, List.foldl_cons, h.contains_eq ho]
    split
    · exact ih h
    · exact ih (List.rel_append h (.cons ho .nil))

/-- Variables that are alike are given the same letters. -/
theorem couples_letterMapping (h : R'.AllAlike w as bs) :
    R.Couples (letterMapping as) (letterMapping bs) w fun w' ps qs => ps.map Prod.fst = as ∧
      List.Forall₂ (fun p q => R'.Alike w' p.1 q.1 ∧ refl.Alike w' p.2 q.2) ps qs := by
  unfold letterMapping
  -- letters go by position, so the position at which the rest begins varies
  generalize 0 = n
  induction as generalizing bs w n with
  | nil =>
    cases h
    exact coupled_pure ⟨rfl, .nil⟩
  | cons a as ih =>
    cases h with
    | cons hab h =>
      rw [List.zipIdx_cons, List.zipIdx_cons, List.mapM_cons, List.mapM_cons]
      refine Coupled.bind
        (Q := fun w' p q => p.1 = a ∧ R'.Alike w' p.1 q.1 ∧ refl.Alike w' p.2 q.2) ?_ ?_
      · exact (@couples_namedVar R refl _ _ _ trivial rfl).bind fun w₁ c d hle hcd =>
          coupled_pure ⟨rfl, hab.of_le hle, hcd⟩
      · rintro w₁ p q hle₁ ⟨rfl, hpq⟩
        refine (ih (AllAlike.of_le h hle₁) (n + 1)).bind ?_
        rintro w₂ ps qs hle₂ ⟨rfl, hps⟩
        exact coupled_pure ⟨rfl, .cons ⟨hpq.1.of_le hle₂, hpq.2.of_le hle₂⟩ hps⟩

/-- The general forms of function types that are alike, with obligations that are alike, are the
same. -/
theorem couples_generalize (h : R'.AlikeFunction w ty ty') (hos : R'.AllAlike w os os') :
    R.Couples (generalize ty os) (generalize ty' os') w Same := by
  obtain ⟨sig, hsig⟩ := h.signature
  obtain ⟨sig', hsig', halike⟩ := h.alike.signature?_some hsig
  unfold generalize
  refine couples_get_bind ?_
  rw [hsig, hsig']
  have hfull : R'.AlikeSig w { sig with givens := StoreM.allGivens sig.givens os }
      { sig' with givens := StoreM.allGivens sig'.givens os' } :=
    ⟨halike.ret, halike.params, AllAlike.allGivens halike.givens hos, halike.isMeta,
      halike.isVariadic⟩
  refine (couples_function hfull).and_run.bind fun w₁ f f' hle₁ ⟨hf, hw₁, hf₁, _⟩ => ?_
  have hfn : R'.AlikeFunction w₁ f f' := by
    refine ⟨hf, ?_⟩
    have hchildren : ∀ c ∈ (Shape.function { sig with
        givens := StoreM.allGivens sig.givens os }).children, c < w.1.size :=
      AllAlike.left_lt (Shape.Like.children (.function (ρ := R'.name) hfull.ret hfull.params
        hfull.givens sig.isMeta sig.isVariadic))
    rw [hw₁, hf₁]
    exact ⟨_, congrArg Shape.signature? (intern_spec hchildren).2⟩
  refine couples_get_bind ?_
  refine (couples_letterMapping hf.collectVars).bind fun w₂ ps qs hle₂ ⟨hfst, hps⟩ => ?_
  refine (couples_substituteAll_function (hfn.of_le hle₂) hps
    (lookup_collectVars hle₂.1 hf.left_lt hfst)).mono fun w₃ g g' _ hg => ?_
  exact ⟨hg.alike, hg.not_var, hg.not_qualified⟩

end Renaming

end ConstraintTyping
