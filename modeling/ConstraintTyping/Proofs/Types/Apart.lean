import ConstraintTyping.Proofs.Types.Uniquing
import ConstraintTyping.Proofs.Types.Variables

/-!
# Renaming apart

A copy of a type at fresh variables is the type under a renaming of its variables, each to one of
its own, none of which was there before.  So a copy has no variable in common with any type that is
older, nor with a copy that is made later.  A type without variables is its own copy.
-/

namespace ConstraintTyping

namespace StoreM

open Store TypeTree

variable {st : Store} {ty : TypeId}

/-- A copy at fresh variables carries the qualifiers of the type. -/
theorem qualifiers_instantiateFresh (h : st.WellQualified) (hty : ty < st.size) :
    (instantiateFresh ty st).2.qualifiers (instantiateFresh ty st).1 = st.qualifiers ty := by
  rw [instantiateFresh_eq]
  have hsteps := ((regular_mapM (fun _ => regular_freshVar) (st.collectVars ty)) st).1.steps
  obtain ⟨hnew, -⟩ := newVars_mapM (st.collectVars ty) st
  generalize hrun : ((st.collectVars ty).mapM fun _ => freshVar) st = run at hsteps hnew
  obtain ⟨ws, st₁⟩ := run
  unfold substituteAll
  split
  · exact qualifiers_of_le hsteps.le hty
  · -- a variable is replaced by a fresh one, or stays
    have hbare : ∀ {v}, st₁.isVar v = true → v < st₁.size ∧ st₁.bare v = v := by
      intro v hv
      refine ⟨lt_size_of_isVar hv, bare_of_not_qualified ?_⟩
      obtain ⟨x, hx⟩ := Shape.isVar_iff.mp hv
      rw [show st₁.shape v = .var x from hx]
      rfl
    refine (yields_mapVars_chain (h.steps hsteps) (fun v hv => hbare ?_) .refl
      (lt_size_of_le hsteps.le hty)).result.2.2.trans (qualifiers_of_le hsteps.le hty)
    cases hl : ((st.collectVars ty).zip ws).lookup v with
    | none => exact hv
    | some w =>
      obtain ⟨l₁, l₂, hzip, -⟩ := List.lookup_eq_some_iff.mp hl
      have hmem : (v, w) ∈ (st.collectVars ty).zip ws := by rw [hzip]; simp
      exact hnew.isVar (List.of_mem_zip hmem).2

/-- A type without variables is its own copy, and nothing is added. -/
theorem instantiateFresh_of_closed (hty : ty < st.size)
    (h : ∀ x, ¬ (st.tree ty).Occurs x) : instantiateFresh ty st = (ty, st) := by
  have hnil : st.collectVars ty = [] := by
    refine List.eq_nil_iff_forall_not_mem.mpr fun v hv => ?_
    obtain ⟨x, -, hx⟩ := (mem_collectVars hty).mp hv
    exact h x hx
  rw [instantiateFresh_eq, hnil]
  rfl

/-- The variables of a copy are in use once it is made, and were not before. -/
theorem occurs_instantiateFresh (hty : ty < st.size) {x : VarIdent}
    (h : ((instantiateFresh ty st).2.tree (instantiateFresh ty st).1).Occurs x) :
    x ∉ st.vars ∧ x ∈ (instantiateFresh ty st).2.vars := by
  obtain ⟨ρ, hρ, htree⟩ := renames_instantiateFresh hty
  rw [htree, occurs_subst] at h
  obtain ⟨y, hy, hx⟩ := h
  obtain rfl := occurs_var.mp hx
  exact ⟨hρ.notMem y hy, hρ.mem y hy⟩

end StoreM

namespace Operation

open Store TypeTree

/-- In every store that operations lead to, a copy of a type at fresh variables is the type under a
renaming of its variables to distinct ones that no older type has, and shares no variable with a
copy of any type that is made after it. -/
theorem instantiateFresh_apart (ops : List Operation) (ty : TypeId)
    (hty : ty < (runAll ops .new).size) :
    let st := runAll ops .new
    let copy := (StoreM.instantiateFresh ty st).1
    let st' := (StoreM.instantiateFresh ty st).2
    (∃ ρ : VarIdent → VarIdent,
      Set.InjOn ρ { x | (st.tree ty).Occurs x } ∧
      (∀ x, (st.tree ty).Occurs x → (∃ v, st.size ≤ v ∧ st'.shape v = .var (ρ x)) ∧
        ∀ old < st.size, ¬ (st'.tree old).Occurs (ρ x)) ∧
      copy < st'.size ∧ st'.tree copy = (st.tree ty).subst (fun x => .var (ρ x)) ∧
      st'.qualifiers copy = st.qualifiers ty) ∧
    ((∀ x, ¬ (st.tree ty).Occurs x) → copy = ty ∧ st' = st) ∧
    ∀ later other, other < (runAll later st').size →
      let copy' := (StoreM.instantiateFresh other (runAll later st')).1
      let st'' := (StoreM.instantiateFresh other (runAll later st')).2
      ∀ x, ¬ ((st''.tree copy).Occurs x ∧ (st''.tree copy').Occurs x) := by
  intro st copy st'
  have hregular : st.Regular := regular_runAll ops .new
  have hle : st ≤ st' := (StoreM.regular_instantiateFresh ty st).1.le
  have hlt : copy < st'.size := (StoreM.yields_instantiateFresh hty).result.1
  refine ⟨?_, fun hclosed => ?_, ?_⟩
  · obtain ⟨ρ, hρ, htree⟩ := StoreM.renames_instantiateFresh hty
    refine ⟨ρ, hρ.injOn, fun x hx => ⟨?_, fun old hold hocc => ?_⟩, hlt, htree,
      StoreM.qualifiers_instantiateFresh hregular.wellQualified hty⟩
    · obtain ⟨v, hv⟩ := hρ.mem x hx
      refine ⟨v, Nat.le_of_not_lt fun hold => hρ.notMem x hx ⟨v, ?_⟩, hv⟩
      exact (shape_of_le hle hold).symm.trans hv
    · rw [tree_of_le hle hold] at hocc
      exact hρ.notMem x hx (mem_vars_of_occurs hocc)
  · have heq := StoreM.instantiateFresh_of_closed hty hclosed
    exact ⟨congrArg Prod.fst heq, congrArg Prod.snd heq⟩
  · intro later other hother copy' st'' x hboth
    have hle₁ : st' ≤ runAll later st' := le_runAll later st'
    have hle₂ : runAll later st' ≤ st'' :=
      (StoreM.regular_instantiateFresh other (runAll later st')).1.le
    rw [tree_of_le (le_trans hle₁ hle₂) hlt] at hboth
    exact (StoreM.occurs_instantiateFresh hother hboth.2).1
      (vars_subset_of_le hle₁ (mem_vars_of_occurs hboth.1))

/-- A pair of one named variable is copied to a pair of one other variable. -/
theorem instantiateFresh_apart_pair :
    let t := (StoreM.namedVar "t" .new).1
    let pair := Description.tuple [t, t]
    let st := runAll [.construct (.namedVar "t"), .construct pair] .new
    let ty := (StoreM.tuple [t, t] (StoreM.namedVar "t" .new).2).1
    ∃ y, y ≠ .named "t" ∧
      (StoreM.instantiateFresh ty st).2.tree (StoreM.instantiateFresh ty st).1 =
        .tuple [.var y, .var y] := by
  intro t pair st ty
  obtain ⟨ht, hread⟩ := (StoreM.yields_namedVar "t" .new).result
  have hitems : ∀ c ∈ [t, t], c < (StoreM.namedVar "t" .new).2.size := by
    rintro c (_ | ⟨_, _ | ⟨_, ⟨⟩⟩⟩) <;> exact ht
  obtain ⟨hty, htuple⟩ := (StoreM.yields_tuple hitems).result
  have htree : st.tree ty = .tuple [.var (.named "t"), .var (.named "t")] :=
    htuple.trans (by rw [List.map_cons, List.map_cons, List.map_nil, hread])
  obtain ⟨⟨ρ, -, hnew, -, hcopy, -⟩, -, -⟩ := instantiateFresh_apart
    [.construct (.namedVar "t"), .construct pair] ty hty
  have hoccurs : (st.tree ty).Occurs (.named "t") := by
    rw [htree]
    exact occurs_mk.mpr (.inr ⟨_, List.mem_cons_self, occurs_var.mpr rfl⟩)
  refine ⟨ρ (.named "t"), fun hsame => ?_, ?_⟩
  · have hold := (hnew _ hoccurs).2 ty hty
    rw [hsame, tree_of_le (StoreM.regular_instantiateFresh ty st).1.le hty] at hold
    exact hold hoccurs
  · refine hcopy.trans ?_
    show (st.tree ty).subst _ = _
    rw [htree, subst_tuple]
    simp

end Operation

end ConstraintTyping
