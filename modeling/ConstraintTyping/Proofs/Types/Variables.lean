import ConstraintTyping.Proofs.Types.Building
import ConstraintTyping.Proofs.Types.Chains
import Mathlib.Data.Set.Function

/-!
# The variables of a store

A fresh variable is one that no type of the store mentions so far.  Several of them are distinct, and
so a copy of a type at fresh variables is the type under a renaming that is injective on its
variables and leads out of those in use.
-/

namespace ConstraintTyping

open TypeTree

namespace Store

variable {st st' : Store} {ty v : TypeId} {x : VarIdent}

/-- The variables that are types of a store. -/
def vars (st : Store) : Set VarIdent := { x | ∃ v, st.shape v = .var x }

theorem lt_size_of_shape_var (h : st.shape v = .var x) : v < st.size :=
  lt_size_of_isVar (by rw [isVar, h]; rfl)

theorem vars_subset_of_le (h : st ≤ st') : st.vars ⊆ st'.vars := by
  rintro x ⟨v, hv⟩
  exact ⟨v, by rw [shape_of_le h (lt_size_of_shape_var hv), hv]⟩

/-- Every variable of a type is in use. -/
theorem mem_vars_of_occurs (h : (st.tree ty).Occurs x) : x ∈ st.vars := exists_var_of_occurs h

/-! ## Collecting variables -/

theorem mem_collectVarsFrom {seen : List TypeId} (hty : ty < st.size) :
    v ∈ st.collectVarsFrom seen ty ↔
      v ∈ seen ∨ ∃ x, st.shape v = .var x ∧ (st.tree ty).Occurs x := by
  induction ty using Nat.strongRecOn generalizing seen with
  | ind ty ih =>
    rw [collectVarsFrom]
    by_cases hg : st.isGeneric ty = true
    swap
    · rw [if_neg hg]
      rw [isGeneric_iff hty] at hg
      exact ⟨.inl, fun h => h.resolve_right fun ⟨x, _, hx⟩ => hg ⟨x, hx⟩⟩
    rw [if_pos hg]
    by_cases hv : st.isVar ty = true
    · rw [if_pos hv]
      obtain ⟨y, hy⟩ := Shape.isVar_iff.mp hv
      -- the only variable that occurs is the type itself
      have hself : (∃ x, st.shape v = .var x ∧ (st.tree ty).Occurs x) ↔ v = ty := by
        rw [tree_of_var hy]
        constructor
        · rintro ⟨x, hx, hoccurs⟩
          rw [occurs_var] at hoccurs
          exact eq_of_shape_var (hoccurs ▸ hx) hy
        · rintro rfl
          exact ⟨y, hy, occurs_var.mpr rfl⟩
      rw [hself]
      split
      · next hmem =>
        rw [List.contains_iff_mem] at hmem
        exact ⟨.inl, fun h => h.elim id fun h => h ▸ hmem⟩
      · rw [List.mem_append, List.mem_singleton]
    · rw [if_neg hv]
      have hloop : ∀ (cs : List { c // c ∈ st.children ty }) (seen : List TypeId),
          v ∈ cs.foldl (fun seen c => st.collectVarsFrom seen c.1) seen ↔
            v ∈ seen ∨ ∃ c ∈ cs, ∃ x, st.shape v = .var x ∧ (st.tree c.1).Occurs x := by
        intro cs
        induction cs with
        | nil => simp
        | cons c cs ih' =>
          intro seen
          rw [List.foldl_cons, ih',
            ih c.1 (lt_of_mem_children c.2) (lt_size_of_mem_children hty c.2)]
          simp only [List.mem_cons, exists_eq_or_imp, or_assoc]
      rw [hloop]
      have hnotvar : ∀ x, st.shape ty ≠ .var x := fun x h => hv (by rw [isVar, h]; rfl)
      refine or_congr_right ⟨?_, ?_⟩
      · rintro ⟨c, -, x, hx, hoccurs⟩
        exact ⟨x, hx, occurs_tree.mpr (.inr ⟨c.1, c.2, hoccurs⟩)⟩
      · rintro ⟨x, hx, hoccurs⟩
        obtain ⟨c, hc, hoccurs⟩ := (occurs_tree.mp hoccurs).resolve_left (hnotvar x)
        exact ⟨⟨c, hc⟩, List.mem_attach _ _, x, hx, hoccurs⟩

/-- The variables that are collected from a type are those that occur in its tree. -/
theorem mem_collectVars (hty : ty < st.size) :
    v ∈ st.collectVars ty ↔ ∃ x, st.shape v = .var x ∧ (st.tree ty).Occurs x := by
  rw [collectVars, mem_collectVarsFrom hty]
  exact or_iff_right List.not_mem_nil

/-! ## New variables -/

/-- Types that are distinct fresh variables, none of which was there before. -/
structure NewVars (st st' : Store) (vs : List TypeId) : Prop where
  fresh : ∀ v ∈ vs, ∃ k, st'.shape v = .var (.fresh k)
  new : ∀ v ∈ vs, st.size ≤ v
  nodup : vs.Nodup

namespace NewVars

variable {st'' : Store} {vs : List TypeId}

theorem isVar (h : NewVars st st' vs) (hv : v ∈ vs) : st'.isVar v = true := by
  obtain ⟨k, hk⟩ := h.fresh v hv
  rw [Store.isVar, hk]
  rfl

theorem lt_size (h : NewVars st st' vs) (hv : v ∈ vs) : v < st'.size := lt_size_of_isVar (h.isVar hv)

theorem of_le (h : NewVars st st' vs) (hle : st' ≤ st'') : NewVars st st'' vs where
  fresh v hv := by
    rw [shape_of_le hle (h.lt_size hv)]
    exact h.fresh v hv
  new := h.new
  nodup := h.nodup

/-- New variables have names that were not in use. -/
theorem notMem_vars (h : NewVars st st' vs) (hle : st ≤ st') (hv : v ∈ vs)
    (hx : st'.shape v = .var x) : x ∉ st.vars := by
  rintro ⟨w, hw⟩
  have hlt := lt_size_of_shape_var hw
  have heq : w = v := eq_of_shape_var (by rw [shape_of_le hle hlt, hw]) hx
  exact absurd (h.new v hv) (Nat.not_le.mpr (heq ▸ hlt))

/-- Variables that are new after others. -/
theorem cons (h : NewVars st st' [v]) (hle : st ≤ st') (hle' : st' ≤ st'')
    (h' : NewVars st' st'' vs) : NewVars st st'' (v :: vs) where
  fresh := List.forall_mem_cons.mpr
    ⟨(h.of_le hle').fresh v List.mem_cons_self, h'.fresh⟩
  new := List.forall_mem_cons.mpr ⟨h.new v List.mem_cons_self, fun w hw =>
    (size_le_of_le hle).trans (h'.new w hw)⟩
  nodup := List.nodup_cons.mpr ⟨fun hmem =>
    absurd (h.lt_size List.mem_cons_self) (Nat.not_lt.mpr (h'.new v hmem)), h'.nodup⟩

/-- New variables, by their names. -/
theorem exists_idents (h : NewVars st st' vs) (hle : st ≤ st') :
    ∃ xs : List VarIdent, vs.map st'.tree = xs.map var ∧ xs.Nodup ∧
      (∀ x ∈ xs, ∃ k, x = .fresh k) ∧ (∀ x ∈ xs, x ∉ st.vars) ∧ ∀ x ∈ xs, x ∈ st'.vars := by
  obtain ⟨name, hname⟩ : ∃ name : TypeId → VarIdent, ∀ v ∈ vs, st'.shape v = .var (name v) := by
    refine ⟨fun v => ((st'.shape v).varIdent?).getD (.fresh 0), fun v hv => ?_⟩
    obtain ⟨k, hk⟩ := h.fresh v hv
    simp only [hk, Shape.varIdent?, Option.getD_some]
  refine ⟨vs.map name, ?_, ?_, ?_, ?_, ?_⟩
  · rw [List.map_map]
    exact List.map_congr_left fun v hv => tree_of_var (hname v hv)
  · refine (List.nodup_map_iff_inj_on h.nodup).mpr fun v hv w hw hvw => ?_
    exact eq_of_shape_var (hname v hv) (hvw ▸ hname w hw)
  · simp only [List.mem_map, forall_exists_index, and_imp, forall_apply_eq_imp_iff₂]
    intro v hv
    obtain ⟨k, hk⟩ := h.fresh v hv
    exact ⟨k, Shape.var.inj ((hname v hv).symm.trans hk)⟩
  · simp only [List.mem_map, forall_exists_index, and_imp, forall_apply_eq_imp_iff₂]
    exact fun v hv => h.notMem_vars hle hv (hname v hv)
  · simp only [List.mem_map, forall_exists_index, and_imp, forall_apply_eq_imp_iff₂]
    exact fun v hv => ⟨v, hname v hv⟩

end NewVars

end Store

namespace StoreM

open Store

variable {st : Store} {ty : TypeId}

/-- Building a type that is no variable brings no variable. -/
theorem vars_intern {s : Shape TypeId} (hs : s.isVar = false) : (intern s st).2.vars = st.vars := by
  refine Set.Subset.antisymm ?_ (vars_subset_of_le (intern_le s st))
  rintro x ⟨v, hv⟩
  by_cases hlt : v < st.size
  · exact ⟨v, by rw [← shape_of_le (intern_le s st) hlt, hv]⟩
  · have hshape := (shape_intern_of_ge (Nat.not_lt.mp hlt) (lt_size_of_shape_var hv)).1
    have hvar : (st.table.key s).isVar = true := by rw [← hshape, hv]; rfl
    rw [TypeTable.key] at hvar
    split at hvar
    · rw [hs] at hvar
      cases hvar
    · rw [Shape.isVar_map, hs] at hvar
      cases hvar

theorem vars_tuple (items : List TypeId) (st : Store) : (tuple items st).2.vars = st.vars := by
  unfold tuple
  split
  · rfl
  · exact vars_intern rfl

/-- A fresh variable is new to the store. -/
theorem freshVar_new (st : Store) :
    st ≤ (freshVar st).2 ∧ (freshVar st).2.nominals = st.nominals ∧ st.size ≤ (freshVar st).1 ∧
      (freshVar st).2.shape (freshVar st).1 = .var (.fresh st.table.freshCount) := by
  obtain ⟨hle, hnom⟩ := builds_freshVar st
  have hshape : (freshVar st).2.shape (freshVar st).1 = .var (.fresh st.table.freshCount) :=
    (yields_intern (s := .var (.fresh st.table.freshCount)) rfl
      (by simp [Shape.children])).result.2
  refine ⟨hle, hnom, ?_, hshape⟩
  by_contra hlt
  have hlt := Nat.lt_of_not_le hlt
  obtain ⟨n, hn⟩ := exists_node hlt
  rw [shape_of_le hle hlt, shape_of_node hn] at hshape
  have hbound := st.table.lawful.fresh_lt hn
  rw [hshape] at hbound
  exact absurd hbound (Nat.not_le.mpr (Nat.lt_succ_self _))

theorem newVars_freshVar (st : Store) : NewVars st (freshVar st).2 [(freshVar st).1] := by
  obtain ⟨-, -, hnew, hshape⟩ := freshVar_new st
  refine ⟨?_, ?_, List.nodup_singleton _⟩
  · simp only [List.mem_singleton, forall_eq]
    exact ⟨_, hshape⟩
  · simpa using hnew

/-- As many fresh variables as a list has elements. -/
theorem newVars_mapM {α : Type} (xs : List α) (st : Store) :
    NewVars st ((xs.mapM fun _ => freshVar) st).2 ((xs.mapM fun _ => freshVar) st).1 ∧
      ((xs.mapM fun _ => freshVar) st).1.length = xs.length := by
  induction xs generalizing st with
  | nil => exact ⟨⟨by simp [StateM.pure_apply], by simp [StateM.pure_apply],
      by simp [StateM.pure_apply]⟩, rfl⟩
  | cons x xs ih =>
    rw [List.mapM_cons]
    simp only [StateM.bind_apply, StateM.pure_apply]
    obtain ⟨hvs, hlen⟩ := ih (freshVar st).2
    exact ⟨(newVars_freshVar st).cons (builds_freshVar st).1
      (builds_mapM (fun _ => builds_freshVar) xs _).1 hvs, congrArg (· + 1) hlen⟩

/-! ## Copies at fresh variables -/

/-- A renaming takes the variables of a tree to distinct fresh ones, out of those that were in use
and into those that are now. -/
structure Renames (t : TypeTree) (old new : Set VarIdent) (ρ : VarIdent → VarIdent) : Prop where
  injOn : Set.InjOn ρ { x | t.Occurs x }
  fresh : ∀ x, t.Occurs x → ∃ k, ρ x = .fresh k
  notMem : ∀ x, t.Occurs x → ρ x ∉ old
  mem : ∀ x, t.Occurs x → ρ x ∈ new

theorem mapM_pair_freshVar (vs : List TypeId) (st : Store) :
    (vs.mapM fun v => do return (v, ← freshVar)) st =
      (vs.zip ((vs.mapM fun _ => freshVar) st).1, ((vs.mapM fun _ => freshVar) st).2) := by
  induction vs generalizing st with
  | nil => rfl
  | cons v vs ih =>
    rw [List.mapM_cons, List.mapM_cons]
    simp only [StateM.bind_apply, StateM.pure_apply]
    rw [ih]
    rfl

/-- What stands in a list is found in it zipped with a list as long. -/
theorem exists_lookup_zip {α β : Type} [DecidableEq α] {as : List α} {bs : List β} {a : α}
    (hlen : as.length ≤ bs.length) (ha : a ∈ as) : ∃ b, (as.zip bs).lookup a = some b := by
  rw [← List.map_fst_zip hlen] at ha
  obtain ⟨p, hp, rfl⟩ := List.mem_map.mp ha
  refine Option.ne_none_iff_exists'.mp fun hnone => ?_
  exact absurd (List.lookup_eq_none_iff.mp hnone p hp) (by simp)

/-- What is looked up among pairs of distinct second components determines the first. -/
theorem eq_of_lookup_zip {vs ws : List TypeId} {v v' w : TypeId} (hws : ws.Nodup)
    (h : (vs.zip ws).lookup v = some w) (h' : (vs.zip ws).lookup v' = some w) : v = v' := by
  have hmem : ∀ {u}, (vs.zip ws).lookup u = some w → (u, w) ∈ vs.zip ws := by
    intro u hu
    obtain ⟨l₁, l₂, hl, -⟩ := List.lookup_eq_some_iff.mp hu
    rw [hl]
    simp
  obtain ⟨i, hi, hvi⟩ := List.getElem_of_mem (hmem h)
  obtain ⟨j, hj, hvj⟩ := List.getElem_of_mem (hmem h')
  rw [List.getElem_zip, Prod.mk.injEq] at hvi hvj
  obtain rfl : i = j := (List.Nodup.getElem_inj_iff hws).mp (hvi.2.trans hvj.2.symm)
  exact hvi.1.symm.trans hvj.1

/-- Distinct variables in the places of those of a type make the type under a renaming. -/
theorem renames_substituteAll {st' : Store} {ws : List TypeId} (hle : st ≤ st') (hty : ty < st.size)
    (hnodup : ws.Nodup) (hvars : ∀ w ∈ ws, st'.isVar w = true)
    (hlen : ws.length = (st.collectVars ty).length) :
    ∃ ρ : VarIdent → VarIdent, Set.InjOn ρ { x | (st.tree ty).Occurs x } ∧
      (∀ x, (st.tree ty).Occurs x → ∃ w ∈ ws, st'.shape w = .var (ρ x)) ∧
      (substituteAll ((st.collectVars ty).zip ws) ty).Yields st' fun r st'' =>
        r < st''.size ∧ st''.tree r = (st.tree ty).subst fun x => var (ρ x) := by
  generalize hvs : st.collectVars ty = vs at hlen ⊢
  have hlt : ∀ p ∈ vs.zip ws, p.2 < st'.size := fun p hp =>
    lt_size_of_isVar (hvars p.2 (List.of_mem_zip hp).2)
  -- a variable that occurs is replaced by the one at its place
  have hfind : ∀ {x}, (st.tree ty).Occurs x → ∃ v w, st.shape v = .var x ∧ w ∈ ws ∧
      (vs.zip ws).lookup v = some w := by
    intro x hx
    obtain ⟨v, hv⟩ := exists_var_of_occurs hx
    have hmem : v ∈ vs := by
      rw [← hvs, mem_collectVars hty]
      exact ⟨x, hv, hx⟩
    obtain ⟨w, hlookup⟩ := exists_lookup_zip hlen.ge hmem
    obtain ⟨l₁, l₂, hl, -⟩ := List.lookup_eq_some_iff.mp hlookup
    exact ⟨v, w, hv, (List.of_mem_zip (show (v, w) ∈ vs.zip ws by rw [hl]; simp)).2, hlookup⟩
  obtain ⟨ρ, hρ⟩ : ∃ ρ : VarIdent → VarIdent, ∀ v w x, (st.tree ty).Occurs x →
      st.shape v = .var x → (vs.zip ws).lookup v = some w → st'.shape w = .var (ρ x) := by
    refine ⟨fun x => ((st'.readVars (fun v => ((vs.zip ws).lookup v).getD v) x).shape.varIdent?).getD
      (.fresh 0), fun v w x hx hv hlookup => ?_⟩
    obtain ⟨v', w', hv', hw', hlookup'⟩ := hfind hx
    obtain rfl := eq_of_shape_var hv hv'
    obtain rfl := Option.some.inj (hlookup.symm.trans hlookup')
    obtain ⟨y, hy⟩ := Shape.isVar_iff.mp (hvars w hw')
    dsimp only
    rw [readVars_eq (by rw [shape_of_le hle (lt_size_of_shape_var hv)]; exact hv), hlookup,
      Option.getD_some, tree_of_var hy, hy]
    rfl
  refine ⟨ρ, ?_, ?_, (yields_substituteAll hlt (lt_size_of_le hle hty)).mono fun r st'' _ h =>
    ⟨h.1, h.2.trans ?_⟩⟩
  · intro x hx y hy hxy
    obtain ⟨v, w, hv, -, hlookup⟩ := hfind hx
    obtain ⟨v', w', hv', -, hlookup'⟩ := hfind hy
    have hw : w = w' := eq_of_shape_var (hρ v w x hx hv hlookup)
      (by rw [hxy]; exact hρ v' w' y hy hv' hlookup')
    subst hw
    have hvv := eq_of_lookup_zip hnodup hlookup hlookup'
    subst hvv
    exact Shape.var.inj (hv.symm.trans hv')
  · intro x hx
    obtain ⟨v, w, hv, hw, hlookup⟩ := hfind hx
    exact ⟨w, hw, hρ v w x hx hv hlookup⟩
  · rw [tree_of_le hle hty]
    refine subst_congr fun x hx => ?_
    obtain ⟨v, w, hv, hw, hlookup⟩ := hfind hx
    rw [readVars_eq (by rw [shape_of_le hle (lt_size_of_shape_var hv)]; exact hv), hlookup,
      Option.getD_some, tree_of_var (hρ v w x hx hv hlookup)]

/-- A copy with new variables: the fresh variables first, then the replacement. -/
theorem instantiateFresh_eq (ty : TypeId) (st : Store) :
    instantiateFresh ty st =
      substituteAll ((st.collectVars ty).zip (((st.collectVars ty).mapM fun _ => freshVar) st).1) ty
        (((st.collectVars ty).mapM fun _ => freshVar) st).2 := by
  unfold instantiateFresh
  change (((st.collectVars ty).mapM fun v => do return (v, ← freshVar)) >>= fun mapping =>
    substituteAll mapping ty) st = _
  rw [StateM.bind_apply, mapM_pair_freshVar]

/-- A copy with new variables is the type under a renaming to them. -/
theorem renames_instantiateFresh (hty : ty < st.size) :
    ∃ ρ, Renames (st.tree ty) st.vars (instantiateFresh ty st).2.vars ρ ∧
      (instantiateFresh ty st).2.tree (instantiateFresh ty st).1 =
        (st.tree ty).subst fun x => var (ρ x) := by
  rw [instantiateFresh_eq]
  have hle := (builds_mapM (fun _ => builds_freshVar) (st.collectVars ty) st).1
  obtain ⟨hnew, hlen⟩ := newVars_mapM (st.collectVars ty) st
  obtain ⟨ρ, hinj, hplace, hsteps, -, htree⟩ := renames_substituteAll hle hty hnew.nodup
    (fun w hw => hnew.isVar hw) hlen
  refine ⟨ρ, ⟨hinj, fun x hx => ?_, fun x hx => ?_, fun x hx => ?_⟩, htree⟩
  · obtain ⟨w, hw, hshape⟩ := hplace x hx
    obtain ⟨k, hk⟩ := hnew.fresh w hw
    exact ⟨k, Shape.var.inj (hshape.symm.trans hk)⟩
  · obtain ⟨w, hw, hshape⟩ := hplace x hx
    exact hnew.notMem_vars hle hw hshape
  · obtain ⟨w, hw, hshape⟩ := hplace x hx
    exact vars_subset_of_le hsteps.le ⟨w, hshape⟩

end StoreM

end ConstraintTyping
