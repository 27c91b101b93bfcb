import ConstraintTyping.Proofs.Infer.Applied
import ConstraintTyping.Proofs.Renaming.Coupled

/-!
# Replacing variables side by side

Replacing variables of types that are alike by types that are alike gives types that are alike.  A
copy of a type at fresh variables does not depend on the names that the type has for its variables:
copies of two types that are the same up to any renaming are alike.  In the same way a type whose
variables are renamed to letters comes out the same on both sides.
-/

namespace ConstraintTyping

open Store StoreM TypeTree

namespace Shape

variable {α β γ δ : Type} {ρ σ : VarIdent → VarIdent} {r : α → β → Prop} {q : γ → δ → Prop}
  {s : Shape α} {t : Shape β} {parts : List γ} {parts' : List δ}

/-- Shapes with the same head, rebuilt over related constituents. -/
theorem Like.withChildren? (h : Like ρ r s t) (hparts : List.Forall₂ q parts parts')
    (hlen : parts.length = s.children.length) (hne : s.children ≠ []) :
    ∃ s' t', s.withChildren? parts = some s' ∧ t.withChildren? parts' = some t' ∧ Like σ q s' t' ∧
      s'.isVar = false ∧ s'.isQualified = s.isQualified := by
  cases h with
  | prim p => exact absurd rfl hne
  | var x => exact absurd rfl hne
  | tuple _ => exact ⟨_, _, rfl, rfl, .tuple hparts, rfl, rfl⟩
  | product name _ => exact ⟨_, _, rfl, rfl, .product name hparts, rfl, rfl⟩
  | sum name _ => exact ⟨_, _, rfl, rfl, .sum name hparts, rfl, rfl⟩
  | pointer _ =>
    cases hparts with
    | nil => cases hlen
    | cons hp _ => exact ⟨_, _, rfl, rfl, .pointer hp, rfl, rfl⟩
  | array _ length =>
    cases hparts with
    | nil => cases hlen
    | cons hp _ => exact ⟨_, _, rfl, rfl, .array hp length, rfl, rfl⟩
  | qualified k _ =>
    cases hparts with
    | nil => cases hlen
    | cons hp _ => exact ⟨_, _, rfl, rfl, .qualified k hp, rfl, rfl⟩
  | trait name _ _ =>
    cases hparts with
    | nil => cases hlen
    | cons hp hps => exact ⟨_, _, rfl, rfl, .trait name hp hps, rfl, rfl⟩
  | function _ hparams _ isMeta isVariadic =>
    cases hparts with
    | nil => cases hlen
    | cons hp hps =>
      refine ⟨_, _, rfl, rfl, .function hp ?_ ?_ isMeta isVariadic, rfl, rfl⟩
      · rw [hparams.length_eq]
        exact List.forall₂_take _ hps
      · rw [hparams.length_eq]
        exact List.forall₂_drop _ hps

end Shape

namespace Renaming

variable {R R' R₀ : Renaming} {w : Stores} {a b v v' : TypeId} {as bs : List TypeId}

/-! ## Replacing variables by types that are alike -/

theorem couples_rebuild (h : R'.Alike w a b) (hparts : R'.AllAlike w as bs)
    (hlen : as.length = (w.1.children a).length) (hne : w.1.children a ≠ []) :
    R.Couples (rebuild a as) (rebuild b bs) w R'.Alike := by
  unfold rebuild
  refine couples_get_bind ?_
  obtain ⟨s, t, hs, ht, hlike, hv, hq⟩ := h.shape.withChildren? (σ := R'.name) hparts hlen hne
  rw [hs, ht]
  cases hlike with
  | var => cases hv
  | qualified q hbase => exact couples_qualify q hbase
  | tuple hitems => exact couples_tuple hitems
  | prim p => exact couples_build (.prim p) rfl rfl
  | pointer hp => exact couples_build (.pointer hp) rfl rfl
  | array hp length => exact couples_build (.array hp length) rfl rfl
  | product name hps => exact couples_build (.product name hps) rfl rfl
  | sum name hps => exact couples_build (.sum name hps) rfl rfl
  | trait name hp hps => exact couples_build (.trait name hp hps) rfl rfl
  | function hret hparams hgivens isMeta isVariadic =>
    exact couples_build (.function hret hparams hgivens isMeta isVariadic) rfl rfl

/-- Replacing the variables of types that are alike, by induction on the left one.  The replacements
are those of earlier stores `w₀`. -/
theorem couples_mapVars_from {f g : TypeId → TypeId} {w₀ : Stores}
    (hf : ∀ v v', w₀.1.isVar v = true → R'.Alike w₀ v v' → R'.Alike w₀ (f v) (g v'))
    (h : R'.Alike w₀ a b) (hle : w₀ ≤ w) :
    R.Couples (mapVars f a) (mapVars g b) w R'.Alike := by
  induction a using Nat.strongRecOn generalizing b w with
  | ind a ih =>
    have hw := h.of_le hle
    rw [mapVars_eq, mapVars_eq]
    refine couples_get_bind ?_
    rw [hw.isGeneric_eq, hw.isVar_eq]
    by_cases hg : w.1.isGeneric a = true
    swap
    · rw [if_neg hg, if_neg hg]
      exact coupled_pure hw
    rw [if_pos hg, if_pos hg]
    by_cases hv : w.1.isVar a = true
    · rw [if_pos hv, if_pos hv]
      rw [isVar_of_le hle.1 h.left_lt] at hv
      exact coupled_pure ((hf a b hv h).of_le hle)
    rw [if_neg hv, if_neg hv]
    have hne : w.1.children a ≠ [] := by
      intro hnil
      rw [Store.isGeneric_eq hw.left_lt, hnil] at hg
      simp only [List.any_nil, Bool.or_false] at hg
      exact hv hg
    rw [children_of_le hle.1 h.left_lt, children_of_le hle.2 h.right_lt]
    rw [children_of_le hle.1 h.left_lt] at hne
    have hloop := coupled_mapM (S := R.InStep) (w := w) (f := mapVars f) (g := mapVars g)
      (r := fun _ c d => c ∈ w₀.1.children a ∧ R'.Alike w₀ c d) (q := R'.Alike)
      (fun _ _ _ _ _ h => h) R'.stable_alike
      (fun w₁ c d hle₁ hcd => ih c (lt_of_mem_children hcd.1) hcd.2 (le_trans hle hle₁))
      (forall₂_of_mem h.children fun c hc d hcd => ⟨hc, hcd⟩)
    refine hloop.bind fun w₁ ms ns hle₁ ⟨hlen, hms⟩ => ?_
    have hchildren := AllAlike.of_le h.children (le_trans hle hle₁)
    have hiff := AllAlike.eq_iff hms hchildren
    by_cases hsame : ms = w₀.1.children a
    · rw [if_pos hsame, if_pos (hiff.mp hsame)]
      exact coupled_pure (h.of_le (le_trans hle hle₁))
    · rw [if_neg hsame, if_neg fun hsame' => hsame (hiff.mpr hsame')]
      have hcs : w₁.1.children a = w₀.1.children a := children_of_le (le_trans hle hle₁).1 h.left_lt
      exact couples_rebuild (h.of_le (le_trans hle hle₁)) hms (by rw [hcs, hlen]) (by rwa [hcs])

theorem couples_mapVars {f g : TypeId → TypeId}
    (hf : ∀ v v', w.1.isVar v = true → R'.Alike w v v' → R'.Alike w (f v) (g v'))
    (h : R'.Alike w a b) : R.Couples (mapVars f a) (mapVars g b) w R'.Alike :=
  couples_mapVars_from hf h le_rfl

theorem couples_replaceVar {r r' : TypeId} (h : R'.Alike w a b) (hv : R'.Alike w v v')
    (hr : R'.Alike w r r') : R.Couples (replaceVar a v r) (replaceVar b v' r') w R'.Alike := by
  refine couples_mapVars (fun u u' _ hu => ?_) h
  by_cases huv : u = v
  · rw [if_pos huv, if_pos ((hu.eq_iff hv).mp huv)]
    exact hr
  · rw [if_neg huv, if_neg fun huv' => huv ((hu.eq_iff hv).mpr huv')]
    exact hu

/-- Pairs of types that are alike. -/
abbrev AlikePair (R : Renaming) (w : Stores) (p q : TypeId × TypeId) : Prop :=
  R.Alike w p.1 q.1 ∧ R.Alike w p.2 q.2

/-- Lists of pairs of types that are alike. -/
abbrev AlikePairs (R : Renaming) (w : Stores) (ps qs : List (TypeId × TypeId)) : Prop :=
  List.Forall₂ (R.AlikePair w) ps qs

theorem stable_alikePair (R : Renaming) : Stable R.AlikePair :=
  fun _ _ _ _ hle h => ⟨h.1.of_le hle, h.2.of_le hle⟩

theorem stable_alikePairs (R : Renaming) : Stable R.AlikePairs :=
  Stable.forall₂ R.stable_alikePair

/-- Types read through bindings that are alike. -/
theorem couples_apply {bs bs' : Bindings} (hbs : R'.AlikePairs w bs.pairs bs'.pairs)
    (h : R'.Alike w a b) : R.Couples (bs.apply a) (bs'.apply b) w R'.Alike := by
  unfold Bindings.apply
  refine couples_get_bind ?_
  rw [h.isGeneric_eq]
  split
  · refine coupled_foldlM (r := R'.AlikePair) R'.stable_alikePair ?_ h (List.rel_reverse hbs)
    rintro w' c d ⟨v, r⟩ ⟨v', r'⟩ - hcd ⟨hv, hr⟩
    exact couples_replaceVar hcd hv hr
  · exact coupled_pure h

theorem AllAlike.zip {as' bs' : List TypeId} (h : R.AllAlike w as bs) (h' : R.AllAlike w as' bs') :
    R.AlikePairs w (as.zip as') (bs.zip bs') := by
  induction h generalizing as' bs' with
  | nil => exact .nil
  | cons h _ ih =>
    cases h' with
    | nil => exact .nil
    | cons h' hs' => exact .cons ⟨h, h'⟩ (ih hs')

/-- Several variables are replaced at once, in types that are alike by types that are alike. -/
theorem couples_replaceAll {ps qs : List (TypeId × TypeId)} (hps : R'.AlikePairs w ps qs)
    (h : R'.Alike w a b) : R.Couples (substituteAll ps a) (substituteAll qs b) w R'.Alike := by
  have hempty : qs.isEmpty = ps.isEmpty := by cases hps <;> rfl
  unfold substituteAll
  rw [hempty]
  split
  · exact coupled_pure h
  refine couples_mapVars (fun v v' _ hvv => ?_) h
  rcases AllAlike.lookup hps hvv with ⟨hnone, hnone'⟩ | ⟨c, d, hc, hd, hcd⟩
  · rw [hnone, hnone']
    exact hvv
  · rw [hc, hd]
    exact hcd

/-! ## Other names for the variables of a type -/

theorem isQualified_substituteAll {st : Store} {ty : TypeId} (mapping : List (TypeId × TypeId))
    (hty : ty < st.size) (hv : st.isVar ty = false) (hq : (st.shape ty).isQualified = false) :
    ((substituteAll mapping ty st).2.shape (substituteAll mapping ty st).1).isQualified = false := by
  unfold substituteAll
  split
  · exact hq
  · exact isQualified_mapVars _ hty hv hq

/-- What stands in the place of a variable on the left is like what stands there on the right. -/
theorem exists_alike_readVars {ps qs : List (TypeId × TypeId)} (h : R₀.Alike w a b)
    (hps : List.Forall₂ (fun p q => R₀.Alike w p.1 q.1 ∧ R'.Alike w p.2 q.2) ps qs)
    (hcovers : ∀ v x, w.1.shape v = .var x → (w.1.tree a).Occurs x → ∃ c, ps.lookup v = some c)
    {x : VarIdent} (hx : (w.1.tree a).Occurs x) : ∃ c d, R'.Alike w c d ∧
      w.1.readVars (fun v => (ps.lookup v).getD v) x = w.1.tree c ∧
      w.2.readVars (fun v => (qs.lookup v).getD v) (R₀.name x) = w.2.tree d := by
  obtain ⟨v, hshape⟩ := exists_var_of_occurs hx
  have hx' : (w.2.tree b).Occurs (R₀.name x) := by
    rw [h.tree]
    exact occurs_rename.mpr ⟨x, hx, rfl⟩
  obtain ⟨v', hshape'⟩ := exists_var_of_occurs hx'
  obtain ⟨c, hc⟩ := hcovers v x hshape hx
  -- the two variables stand for each other, so they are found at one place of the two mappings
  have hvv : R₀.Alike w v v' := alike_var hshape hshape' (h.occurs x hx)
  rcases AllAlike.lookup hps hvv with ⟨hnone, -⟩ | ⟨c', d, hc', hd, hcd⟩
  · rw [hc] at hnone
    cases hnone
  · refine ⟨c', d, hcd, ?_, ?_⟩
    · rw [readVars_eq hshape, hc']
      rfl
    · rw [readVars_eq hshape', hd]
      rfl

/-- The variables of two types that are the same up to one renaming are replaced by variables that
stand for each other under another one. -/
theorem couples_substituteAll {ps qs : List (TypeId × TypeId)} (h : R₀.Alike w a b)
    (hv : w.1.isVar a = false) (hq : (w.1.shape a).isQualified = false)
    (hps : List.Forall₂ (fun p q => R₀.Alike w p.1 q.1 ∧ R'.Alike w p.2 q.2) ps qs)
    (hcovers : ∀ v x, w.1.shape v = .var x → (w.1.tree a).Occurs x → ∃ c, ps.lookup v = some c) :
    R.Couples (substituteAll ps a) (substituteAll qs b) w R'.Alike := by
  refine couples_of_run fun hlock => ?_
  have hps_lt : ∀ p ∈ ps, p.2 < w.1.size := fun p hp => by
    obtain ⟨q, -, hpq⟩ := exists_mem_of_forall₂ hps.flip hp
    exact hpq.2.left_lt
  have hqs_lt : ∀ q ∈ qs, q.2 < w.2.size := fun q hq => by
    obtain ⟨p, -, hpq⟩ := exists_mem_of_forall₂ hps hq
    exact hpq.2.right_lt
  obtain ⟨-, hlt, htree⟩ := yields_substituteAll hps_lt h.left_lt
  obtain ⟨-, hlt', htree'⟩ := yields_substituteAll hqs_lt h.right_lt
  refine ⟨⟨(builds_substituteAll _ _ _).1, (builds_substituteAll _ _ _).1⟩,
    hlock.of_count (makesNoVar_substituteAll _ _ _) (makesNoVar_substituteAll _ _ _),
    ⟨hlt, hlt', ?_, ?_, ?_⟩⟩
  · rw [qualifiers_of_not_qualified (isQualified_substituteAll ps h.left_lt hv hq),
      qualifiers_of_not_qualified (isQualified_substituteAll qs h.right_lt (h.isVar_eq.trans hv)
        (h.isQualified_eq.trans hq))]
  · dsimp only
    rw [htree, htree', h.tree, rename, rename, subst_subst, subst_subst]
    refine subst_congr fun x hx => ?_
    obtain ⟨c, d, hcd, hc, hd⟩ := exists_alike_readVars h hps hcovers hx
    rw [subst_var, hc, hd, hcd.tree, rename]
  · dsimp only
    rw [htree]
    intro y hy
    obtain ⟨x, hx, hy⟩ := (occurs_subst _).mp hy
    obtain ⟨c, d, hcd, hc, -⟩ := exists_alike_readVars h hps hcovers hx
    rw [hc] at hy
    exact hcd.occurs y hy

/-- Fresh variables for the members of two lists of one length. -/
theorem couples_freshVars {as bs : List TypeId} (h : R₀.AllAlike w as bs) :
    R.Couples (as.mapM fun v => do return (v, ← freshVar)) (bs.mapM fun v => do return (v, ← freshVar))
      w fun w' ps qs => ps.map Prod.fst = as ∧
        List.Forall₂ (fun p q => R₀.Alike w' p.1 q.1 ∧ R.Alike w' p.2 q.2) ps qs := by
  induction as generalizing bs w with
  | nil =>
    cases h
    exact coupled_pure ⟨rfl, .nil⟩
  | cons a as ih =>
    cases h with
    | cons hab h =>
      rw [List.mapM_cons, List.mapM_cons]
      refine Coupled.bind (Q := fun w' p q => p.1 = a ∧ R₀.Alike w' p.1 q.1 ∧ R.Alike w' p.2 q.2) ?_ ?_
      · exact (R.couples_freshVar w).bind fun w' c d hle hcd =>
          coupled_pure ⟨rfl, hab.of_le hle, hcd⟩
      · rintro w₁ p q hle₁ ⟨rfl, hpq⟩
        refine (ih (AllAlike.of_le h hle₁)).bind ?_
        rintro w₂ ps qs hle₂ ⟨rfl, hps⟩
        exact coupled_pure ⟨rfl, .cons ⟨hpq.1.of_le hle₂, hpq.2.of_le hle₂⟩ hps⟩

/-- A list of pairs whose first components are the variables of a type has an entry for each of
them, also in a later store. -/
theorem lookup_collectVars {st st' : Store} {ty : TypeId} {ps : List (TypeId × TypeId)} (hle : st ≤ st')
    (hty : ty < st.size) (hps : ps.map Prod.fst = st.collectVars ty) (v : TypeId) (x : VarIdent)
    (hv : st'.shape v = .var x) (hx : (st'.tree ty).Occurs x) : ∃ c, ps.lookup v = some c := by
  rw [tree_of_le hle hty] at hx
  obtain ⟨u, hu⟩ := exists_var_of_occurs hx
  have huv : u = v := eq_of_shape_var (by rw [shape_of_le hle (lt_size_of_shape_var hu), hu]) hv
  have hmem : v ∈ ps.map Prod.fst := by
    rw [hps, mem_collectVars hty, ← huv]
    exact ⟨x, hu, hx⟩
  obtain ⟨p, hp, rfl⟩ := List.mem_map.mp hmem
  refine Option.ne_none_iff_exists'.mp fun hnone => ?_
  exact absurd (List.lookup_eq_none_iff.mp hnone p hp) (by simp)

/-- Copies at fresh variables of types that are alike. -/
theorem couples_copy (h : R.Alike w a b) :
    R.Couples (instantiateFresh a) (instantiateFresh b) w R.Alike := by
  unfold instantiateFresh
  refine couples_get_bind ((couples_freshVars h.collectVars).bind ?_)
  rintro w' ps qs hle ⟨-, hps⟩
  exact couples_replaceAll hps (h.of_le hle)

/-- Copies at fresh variables of two types that are the same up to a renaming. -/
theorem couples_instantiateFresh (h : R₀.Alike w a b) (hv : w.1.isVar a = false)
    (hq : (w.1.shape a).isQualified = false) :
    R.Couples (instantiateFresh a) (instantiateFresh b) w R.Alike := by
  unfold instantiateFresh
  refine couples_get_bind ?_
  refine (couples_freshVars h.collectVars).bind ?_
  rintro w' ps qs hle ⟨hfst, hps⟩
  exact couples_substituteAll (h.of_le hle) (by rw [isVar_of_le hle.1 h.left_lt, hv])
    (by rw [shape_of_le hle.1 h.left_lt, hq]) hps (lookup_collectVars hle.1 h.left_lt hfst)

end Renaming

end ConstraintTyping
