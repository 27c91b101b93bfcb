import ConstraintTyping.Proofs.Types.Uniquing
import ConstraintTyping.Solve.Bindings

/-!
# Rewriting without shortcuts

The walk that replaces variables skips the parts of a type in which no variable occurs, and it keeps
a part whose constituents did not change instead of building it again.  Neither can be told from the
outside: the walk that visits every part and builds every part again gives the same type and the
same store, because a type that is built again from its own constituents is found.

Ordered bindings compose: applying some bindings and then newer ones is applying the newer ones on
top of the older ones.
-/

namespace ConstraintTyping

namespace StoreM

open Store

/-- Replace every variable `v` of a type by `f v`, and build everything else again. -/
def rewriteAll (f : TypeId → TypeId) (ty : TypeId) : StoreM TypeId := do
  let st ← get
  if st.isVar ty then
    return f ty
  else
    let mapped ← (st.children ty).attach.mapM fun ⟨c, h⟩ =>
      have : c < ty := lt_of_mem_children h
      rewriteAll f c
    rebuild ty mapped
termination_by ty

variable {st : Store} {f : TypeId → TypeId} {ty : TypeId}

/-- The walk over a type, without the proof that it ends. -/
theorem rewriteAll_eq (f : TypeId → TypeId) (ty : TypeId) :
    rewriteAll f ty = (do
      let st ← get
      if st.isVar ty then
        return f ty
      else
        let mapped ← (st.children ty).mapM (rewriteAll f)
        rebuild ty mapped) := by
  rw [rewriteAll]
  congr 1
  funext st
  have hmap : ((st.children ty).attach.mapM fun c => rewriteAll f c.1) =
      (st.children ty).mapM (rewriteAll f) := mapM_attach fun _ => rfl
  simp only [hmap]

/-- Computations that agree on all stores of some kind agree when they run one after the other. -/
theorem mapM_congr {α β : Type} {g h : α → StoreM β} {P : Store → Prop} {xs : List α}
    (hgh : ∀ x ∈ xs, ∀ st, P st → g x st = h x st) (hP : ∀ x ∈ xs, ∀ st, P st → P (h x st).2)
    (hst : P st) : xs.mapM g st = xs.mapM h st := by
  induction xs generalizing st with
  | nil => rfl
  | cons x xs ih =>
    rw [List.mapM_cons, List.mapM_cons]
    simp only [StateM.bind_apply, StateM.pure_apply]
    rw [hgh x List.mem_cons_self st hst, ih (fun y hy => hgh y (List.mem_cons_of_mem x hy))
      (fun y hy => hP y (List.mem_cons_of_mem x hy)) (hP x List.mem_cons_self st hst)]

theorem isGeneric_of_isVar (h : st.isVar ty = true) : st.isGeneric ty = true := by
  rw [isGeneric_eq (lt_size_of_isVar h), show (st.shape ty).isVar = true from h]
  rfl

theorem isGeneric_of_mem_children {c : TypeId} (hty : ty < st.size) (hc : c ∈ st.children ty)
    (h : st.isGeneric c = true) : st.isGeneric ty = true := by
  rw [isGeneric_eq hty, List.any_eq_true.mpr ⟨c, hc, h⟩, Bool.or_true]

theorem lt_size_of_isGeneric (h : st.isGeneric ty = true) : ty < st.size := by
  by_contra hge
  rw [isGeneric, flags_of_ge (Nat.le_of_not_lt hge), Flags.has_zero] at h
  cases h

theorem lt_size_of_mem_own_children {c : TypeId} (hc : c ∈ st.children ty) : ty < st.size := by
  by_contra hge
  have hs : st.children ty = [] := congrArg Shape.children (shape_of_ge (Nat.le_of_not_lt hge))
  rw [hs] at hc
  cases hc

/-- A type in which no variable occurs is kept by the walk with the shortcuts. -/
theorem mapVars_of_not_generic (f : TypeId → TypeId) (h : st.isGeneric ty = false) :
    mapVars f ty st = (ty, st) := by
  rw [mapVars]
  change (ite (st.isGeneric ty = true) _ _ : StoreM TypeId) st = _
  rw [if_neg (by simp [h])]
  rfl

/-- Both walks give the same type and the same store. -/
theorem rewriteAll_eq_mapVars (h : st.Regular) (f : TypeId → TypeId) (ty : TypeId) :
    rewriteAll f ty st = mapVars f ty st := by
  induction ty using Nat.strongRecOn generalizing st with
  | ind ty ih =>
    have hloop : (st.children ty).mapM (rewriteAll f) st = (st.children ty).mapM (mapVars f) st :=
      mapM_congr (P := Store.Regular) (fun c hc st' hst' => ih c (lt_of_mem_children hc) hst')
        (fun c _ st' hst' => hst'.trans (regular_mapVars f c st').1) h
    rw [rewriteAll_eq, mapVars_eq]
    change (ite (st.isVar ty = true) _ _ : StoreM TypeId) st =
      (ite (st.isGeneric ty = true) _ _ : StoreM TypeId) st
    by_cases hv : st.isVar ty = true
    · rw [if_pos hv, if_pos (isGeneric_of_isVar hv), if_pos hv]
    rw [if_neg hv, StateM.bind_apply, hloop]
    by_cases hg : st.isGeneric ty = true
    · rw [if_pos hg, if_neg hv, StateM.bind_apply]
      split
      · next hsame =>
        -- nothing changed, so what is built again is the type itself
        have hs := (regular_mapM (regular_mapVars f) (st.children ty) st).1
        have hself := rebuild_self (h.trans hs) ty
        rw [children_of_le hs.le (lt_size_of_isGeneric hg)] at hself
        rw [hsame]
        exact hself
      · rfl
    · -- no constituent has a variable either, and each is kept
      rw [if_neg hg]
      have hkept : (st.children ty).mapM (mapVars f) st = (st.children ty, st) := by
        rw [mapM_eq_self (g := id), List.map_id]
        intro c hc
        refine mapVars_of_not_generic f (Bool.eq_false_iff.mpr fun hgc => hg ?_)
        exact isGeneric_of_mem_children (lt_size_of_mem_own_children hc) hc hgc
      rw [hkept]
      exact rebuild_self h ty

/-- Replacing several variables at once. -/
theorem substituteAll_eq_rewriteAll (h : st.Regular) (mapping : List (TypeId × TypeId))
    (ty : TypeId) :
    substituteAll mapping ty st = rewriteAll (fun v => (mapping.lookup v).getD v) ty st := by
  rw [rewriteAll_eq_mapVars h, substituteAll]
  split
  · next hempty =>
    rw [List.isEmpty_iff.mp hempty]
    exact (mapVars_eq_self st ty fun _ _ _ _ => rfl).symm
  · rfl

/-- Replacing one variable is replacing the variables of a list of one pair. -/
theorem replaceVar_eq_substituteAll (ty var replacement : TypeId) :
    replaceVar ty var replacement = substituteAll [(var, replacement)] ty := by
  rw [replaceVar, substituteAll, if_neg (by simp)]
  congr 1
  funext v
  rw [List.lookup_cons]
  by_cases hv : v = var
  · rw [if_pos hv, hv, beq_self_eq_true]
    rfl
  · rw [if_neg hv, beq_false_of_ne hv]
    rfl

end StoreM

/-! ## Ordered bindings -/

namespace Bindings

open Store StoreM

variable {st : Store} {ty : TypeId}

/-- No binding reaches into a type without variables. -/
theorem replaceVars_of_not_generic (ps : List (TypeId × TypeId)) (h : st.isGeneric ty = false) :
    ps.foldlM (fun ty (p : TypeId × TypeId) => replaceVar ty p.1 p.2) ty st = (ty, st) := by
  induction ps with
  | nil => rfl
  | cons p ps ih =>
    rw [List.foldlM_cons, StateM.bind_apply, replaceVar, mapVars_of_not_generic _ h]
    exact ih

/-- Applying bindings is replacing by one after the other, whether a variable occurs or not. -/
theorem apply_eq (b : Bindings) (ty : TypeId) (st : Store) :
    b.apply ty st =
      b.pairs.reverse.foldlM (fun ty (p : TypeId × TypeId) => replaceVar ty p.1 p.2) ty st := by
  unfold apply
  change (ite (st.isGeneric ty = true) _ _ : StoreM TypeId) st = _
  by_cases hg : st.isGeneric ty = true
  · rw [if_pos hg]
  · rw [if_neg hg, replaceVars_of_not_generic _ (by simpa using hg)]
    rfl

/-- Bindings followed by newer ones, applied at once or one after the other. -/
theorem apply_andThen (b newer : Bindings) (ty : TypeId) :
    (b.andThen newer).apply ty = b.apply ty >>= newer.apply := by
  funext st
  rw [StateM.bind_apply, apply_eq, apply_eq, apply_eq, andThen, List.reverse_append,
    List.foldlM_append]
  rfl

/-- Newer bindings put on top one by one, the oldest of them first. -/
theorem foldr_prepend (b newer : Bindings) :
    newer.pairs.foldr (fun p b => b.prepend p.1 p.2) b = b.andThen newer := by
  obtain ⟨ps⟩ := newer
  induction ps with
  | nil => rfl
  | cons p ps ih =>
    rw [List.foldr_cons, ih]
    rfl

end Bindings

/-! ## In every store -/

namespace Operation

open StoreM

/-- In every store that operations lead to, replacing variables with the shortcuts is replacing them
without, with the same type and the same store; and applying composed bindings is applying the
older ones and then the newer ones. -/
theorem rewriting_ungated (ops : List Operation) :
    let st := runAll ops .new
    (∀ mapping ty, StoreM.substituteAll mapping ty st =
      rewriteAll (fun v => (mapping.lookup v).getD v) ty st) ∧
    (∀ ty var replacement, StoreM.replaceVar ty var replacement st =
        rewriteAll (fun v => if v = var then replacement else v) ty st ∧
      StoreM.replaceVar ty var replacement st =
        StoreM.substituteAll [(var, replacement)] ty st) ∧
    (∀ (b newer : Bindings) ty,
      (b.andThen newer).apply ty st = (b.apply ty >>= newer.apply) st ∧
      (newer.pairs.foldr (fun p b => b.prepend p.1 p.2) b).apply ty st =
        (b.apply ty >>= newer.apply) st) := by
  intro st
  have hst : st.Regular := regular_runAll ops .new
  refine ⟨substituteAll_eq_rewriteAll hst, fun ty var replacement => ⟨?_, ?_⟩,
    fun b newer ty => ⟨?_, ?_⟩⟩
  · exact (rewriteAll_eq_mapVars hst _ ty).symm
  · rw [replaceVar_eq_substituteAll]
  · rw [Bindings.apply_andThen]
  · rw [Bindings.foldr_prepend, Bindings.apply_andThen]

end Operation

end ConstraintTyping
