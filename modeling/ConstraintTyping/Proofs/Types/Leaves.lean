import ConstraintTyping.Proofs.Types.Tables
import ConstraintTyping.Proofs.Types.Variables

/-!
# The variables at the leaves of a type

Constituent by constituent a type unfolds to a tree, in which a shared part stands as often as it is
used.  The questions about variables are answered on the store, where each part is looked at once or
not at all.  Here they are compared with the leaves of the tree: the variables of a type are its
leaves in order of first appearance, a variable occurs where it is a leaf, a type is generic when it
has such a leaf, and replacing a variable exchanges its leaves and keeps all others.
-/

namespace ConstraintTyping

open TypeTree

namespace Store

variable {st st' : Store} {ty v w x : TypeId}

/-! ## Leaves -/

/-- The variables at the leaves of the tree to which constituents unfold a type: from left to right,
each as often as it stands there. -/
def varLeaves (st : Store) (ty : TypeId) : List TypeId :=
  if st.isVar ty then [ty]
  else (st.children ty).attach.flatMap fun ⟨c, h⟩ =>
    have : c < ty := lt_of_mem_children h
    st.varLeaves c
termination_by ty

theorem varLeaves_of_isVar (h : st.isVar ty = true) : st.varLeaves ty = [ty] := by
  rw [varLeaves, if_pos h]

theorem varLeaves_of_not_isVar (h : st.isVar ty = false) :
    st.varLeaves ty = (st.children ty).flatMap st.varLeaves := by
  rw [varLeaves, if_neg (by simp [h])]
  show (st.children ty).attach.flatMap (fun c => st.varLeaves c.1) = _
  rw [← List.flatMap_map Subtype.val st.varLeaves, List.attach_map_subtype_val]

/-- A type without variables has no leaf that is one. -/
theorem varLeaves_eq_nil (hty : ty < st.size) (h : st.isGeneric ty = false) :
    st.varLeaves ty = [] := by
  induction ty using Nat.strongRecOn with
  | ind ty ih =>
    rw [isGeneric_eq hty, Bool.or_eq_false_iff, List.any_eq_false] at h
    obtain ⟨hvar, hchildren⟩ := h
    rw [varLeaves_of_not_isVar hvar, List.flatMap_eq_nil_iff]
    intro c hc
    exact ih c (lt_of_mem_children hc) (lt_size_of_mem_children hty hc) (by simpa using hchildren c hc)

/-- Collecting adds the leaves that are not among those seen before. -/
theorem collectVarsFrom_eq (hty : ty < st.size) (seen : List TypeId) :
    st.collectVarsFrom seen ty = seen ++ newTo seen (st.varLeaves ty) := by
  induction ty using Nat.strongRecOn generalizing seen with
  | ind ty ih =>
    rw [collectVarsFrom]
    by_cases hg : st.isGeneric ty = true
    swap
    · rw [if_neg hg, varLeaves_eq_nil hty (by simpa using hg)]
      simp [newTo]
    rw [if_pos hg]
    by_cases hv : st.isVar ty = true
    · rw [if_pos hv, varLeaves_of_isVar hv]
      by_cases hseen : ty ∈ seen
      · simp [newTo, hseen]
      · simp [newTo, hseen, List.eraseDups_cons]
    · rw [if_neg hv, varLeaves_of_not_isVar (by simpa using hv)]
      have hloop : ∀ (cs : List { c // c ∈ st.children ty }) (seen : List TypeId),
          cs.foldl (fun seen c => st.collectVarsFrom seen c.1) seen =
            seen ++ newTo seen ((cs.map Subtype.val).flatMap st.varLeaves) := by
        intro cs
        induction cs with
        | nil => intro seen; simp [newTo]
        | cons c cs ihcs =>
          intro seen
          have hc := ih c.1 (lt_of_mem_children c.2) (lt_size_of_mem_children hty c.2) seen
          rw [List.foldl_cons, ihcs, hc, List.map_cons, List.flatMap_cons, newTo_append,
            List.append_assoc]
      show (st.children ty).attach.foldl (fun seen c => st.collectVarsFrom seen c.1) seen = _
      rw [hloop, List.attach_map_subtype_val]

/-- The variables of a type are its leaves in order of first appearance. -/
theorem collectVars_eq (hty : ty < st.size) : st.collectVars ty = (st.varLeaves ty).eraseDups := by
  rw [collectVars, collectVarsFrom_eq hty, newTo_nil, List.nil_append]

/-! ## Occurrence -/

/-- The search for a variable finds it exactly where it is collected. -/
theorem occurs_iff_mem_collectVars (hv : st.isVar v = true) (hty : ty < st.size) :
    st.occurs v ty = true ↔ v ∈ st.collectVars ty := by
  obtain ⟨y, hy⟩ := Shape.isVar_iff.mp hv
  rw [occurs_iff hy hty, mem_collectVars hty]
  constructor
  · intro hoccurs
    exact ⟨y, hy, hoccurs⟩
  · rintro ⟨z, hz, hoccurs⟩
    obtain rfl := Shape.var.inj (hy.symm.trans hz)
    exact hoccurs

theorem isGeneric_iff_collectVars (hty : ty < st.size) :
    st.isGeneric ty = true ↔ st.collectVars ty ≠ [] := by
  rw [isGeneric_iff hty]
  constructor
  · rintro ⟨y, hoccurs⟩
    obtain ⟨v, hv⟩ := exists_var_of_occurs hoccurs
    exact List.ne_nil_of_mem ((mem_collectVars hty).mpr ⟨y, hv, hoccurs⟩)
  · intro hne
    obtain ⟨v, hv⟩ := List.exists_mem_of_ne_nil _ hne
    obtain ⟨y, -, hoccurs⟩ := (mem_collectVars hty).mp hv
    exact ⟨y, hoccurs⟩

/-! ## Replacement -/

/-- In a store that has grown the same types are the variables of a tree read before. -/
theorem shape_var_iff_of_le {y : VarIdent} (hle : st ≤ st') (hoccurs : (st.tree ty).Occurs y) :
    st'.shape x = .var y ↔ st.shape x = .var y := by
  obtain ⟨u, hu⟩ := exists_var_of_occurs hoccurs
  have hu' : st'.shape u = .var y := by rw [shape_of_le hle (lt_size_of_shape_var hu), hu]
  constructor
  · intro hx
    rw [eq_of_shape_var hx hu', hu]
  · intro hx
    rw [eq_of_shape_var hx hu, hu']

end Store

theorem TypeTree.occurs_replace_iff {x y : VarIdent} {r t : TypeTree} :
    Occurs y (t.replace x r) ↔ Occurs y t ∧ y ≠ x ∨ Occurs x t ∧ Occurs y r := by
  constructor
  · exact occurs_replace
  · rintro (⟨hy, hne⟩ | ⟨hx, hy⟩)
    · exact (occurs_subst t).mpr ⟨y, hy, by rw [Function.update_of_ne hne]; exact occurs_var.mpr rfl⟩
    · exact (occurs_subst t).mpr ⟨x, hx, by rwa [Function.update_self]⟩

namespace StoreM

open Store

variable {st : Store} {ty v w x : TypeId}

/-- The variables that replacing one leaves are the others, and those of what takes its place where
it stood. -/
theorem mem_collectVars_replaceVar (hv : st.isVar v = true) (hw : w < st.size) (hty : ty < st.size) :
    (replaceVar ty v w).Yields st fun r st' => r < st'.size ∧ ∀ x, x ∈ st'.collectVars r ↔
      x ∈ st.collectVars ty ∧ x ≠ v ∨ v ∈ st.collectVars ty ∧ x ∈ st.collectVars w := by
  obtain ⟨z, hz⟩ := Shape.isVar_iff.mp hv
  refine (yields_replaceVar hz hw hty).mono fun r st' hsteps h => ⟨h.1, fun x => ?_⟩
  have hmemv : v ∈ st.collectVars ty ↔ (st.tree ty).Occurs z := by
    rw [← occurs_iff_mem_collectVars hv hty, occurs_iff hz hty]
  rw [mem_collectVars h.1, mem_collectVars hty, mem_collectVars hw, hmemv, h.2]
  simp only [occurs_replace_iff]
  constructor
  · rintro ⟨y, hx, ⟨hoccurs, hne⟩ | ⟨hself, hoccurs⟩⟩
    · rw [shape_var_iff_of_le hsteps.le hoccurs] at hx
      refine .inl ⟨⟨y, hx, hoccurs⟩, ?_⟩
      rintro rfl
      exact hne (Shape.var.inj (hx.symm.trans hz))
    · rw [shape_var_iff_of_le hsteps.le hoccurs] at hx
      exact .inr ⟨hself, y, hx, hoccurs⟩
  · rintro (⟨⟨y, hx, hoccurs⟩, hne⟩ | ⟨hself, y, hx, hoccurs⟩)
    · refine ⟨y, (shape_var_iff_of_le hsteps.le hoccurs).mpr hx, .inl ⟨hoccurs, ?_⟩⟩
      rintro rfl
      exact hne (eq_of_shape_var hx hz)
    · exact ⟨y, (shape_var_iff_of_le hsteps.le hoccurs).mpr hx, .inr ⟨hself, hoccurs⟩⟩

/-- A type of a shape over types without qualifiers. -/
theorem yields_shape {s : Shape TypeId} (hq : s.isQualified = false)
    (hs : ∀ c ∈ s.children, c < st.size ∧ (st.shape c).isQualified = false) :
    (intern s).Yields st fun ty st' => st'.shape ty = s := by
  refine (yields_intern hq fun c hc => (hs c hc).1).mono fun ty st' _ h => ?_
  have hbare : ∀ c ∈ s.children, st.bare c = id c := fun c hc => bare_of_not_qualified (hs c hc).2
  rw [h.2, Shape.map_congr hbare, Shape.map_id]

end StoreM

namespace Store

variable {st : Store}

/-- The queries about variables describe one set of leaves.  The variables that are collected from a
type are the leaves of the tree to which its constituents unfold it that are variables, in order of
first appearance, and a type is generic exactly when there are any.  A variable occurs in a type
exactly when it is collected from it.  Replacing it leaves the other variables of the type and, if it
was there, those of what takes its place; so it is gone unless it occurs in that. -/
theorem variableQueries_agree (st : Store) {ty : TypeId} (hty : ty < st.size) :
    st.collectVars ty = (st.varLeaves ty).eraseDups ∧
    (st.isGeneric ty = true ↔ st.collectVars ty ≠ []) ∧
    ∀ v, st.isVar v = true →
      (st.occurs v ty = true ↔ v ∈ st.collectVars ty) ∧
      ∀ w < st.size,
        let replaced := StoreM.replaceVar ty v w st
        (∀ x, x ∈ replaced.2.collectVars replaced.1 ↔
          x ∈ st.collectVars ty ∧ x ≠ v ∨ v ∈ st.collectVars ty ∧ x ∈ st.collectVars w) ∧
        (st.occurs v w = false → replaced.2.occurs v replaced.1 = false) := by
  refine ⟨collectVars_eq hty, isGeneric_iff_collectVars hty, fun v hv =>
    ⟨occurs_iff_mem_collectVars hv hty, ?_⟩⟩
  intro w hw replaced
  obtain ⟨hsteps, hlt, hmem⟩ := StoreM.mem_collectVars_replaceVar hv hw hty
  refine ⟨hmem, fun hnot => ?_⟩
  have hv' : replaced.2.isVar v = true := by
    rw [← hv]
    exact isVar_of_le hsteps.le (lt_size_of_isVar hv)
  rw [← Bool.not_eq_true, occurs_iff_mem_collectVars hv' hlt]
  intro hmem'
  rcases (hmem v).mp hmem' with ⟨-, hne⟩ | ⟨-, hmemw⟩
  · exact hne rfl
  · rw [(occurs_iff_mem_collectVars hv hw).mpr hmemw] at hnot
    cases hnot

/-- A function from a pointer to `v` to `v`, for every `v` if only `u` can be shown, with `v` and
`u`. -/
def boundedFunction : StoreM (TypeId × TypeId × TypeId) := do
  let v ← StoreM.namedVar "v"
  let u ← StoreM.namedVar "u"
  let p ← StoreM.pointer v
  let g ← StoreM.traitType "Show" u []
  let f ← StoreM.function { ret := v, params := [p], givens := [g] }
  return (f, v, u)

theorem shapes_boundedFunction (st : Store) :
    boundedFunction.Yields st fun r st' => ∃ p g,
      st'.shape r.2.1 = .var (.named "v") ∧ st'.shape r.2.2 = .var (.named "u") ∧
      st'.shape p = .pointer r.2.1 ∧ st'.shape g = .trait "Show" r.2.2 [] ∧
      st'.shape r.1 = .function { ret := r.2.1, params := [p], givens := [g] } := by
  have keeps : ∀ {st st' : Store} {c : TypeId} {s : Shape TypeId}, st ≤ st' → st.shape c = s →
      s ≠ .prim .error → st'.shape c = s :=
    fun hle h hs => (shape_of_le hle (lt_size_of_shape_ne (h ▸ hs))).trans h
  have part : ∀ {st : Store} {c : TypeId} {s : Shape TypeId}, st.shape c = s → s ≠ .prim .error →
      s.isQualified = false → c < st.size ∧ (st.shape c).isQualified = false :=
    fun h hs hq => ⟨lt_size_of_shape_ne (h ▸ hs), h ▸ hq⟩
  refine (StoreM.yields_shape (s := .var (.named "v")) rfl (by simp [Shape.children])).bind
    fun v st₁ _ hv => ?_
  refine (StoreM.yields_shape (s := .var (.named "u")) rfl (by simp [Shape.children])).bind
    fun u st₂ h₂ hu => ?_
  have hv := keeps h₂.le hv nofun
  refine (StoreM.yields_shape (s := .pointer v) rfl
    (by simpa [Shape.children] using part hv nofun rfl)).bind fun p st₃ h₃ hp => ?_
  have hv := keeps h₃.le hv nofun
  have hu := keeps h₃.le hu nofun
  refine (StoreM.yields_shape (s := .trait "Show" u []) rfl
    (by simpa [Shape.children] using part hu nofun rfl)).bind fun g st₄ h₄ hg => ?_
  have hv := keeps h₄.le hv nofun
  have hu := keeps h₄.le hu nofun
  have hp := keeps h₄.le hp nofun
  refine (StoreM.yields_shape (s := .function { ret := v, params := [p], givens := [g] }) rfl
    (by simpa [Shape.children, Signature.children] using
      ⟨part hv nofun rfl, part hp nofun rfl, part hg nofun rfl⟩)).bind fun f st₅ h₅ hf => ?_
  refine StoreM.yields_pure ⟨p, g, ?_, ?_, ?_, ?_, hf⟩
  · exact keeps h₅.le hv nofun
  · exact keeps h₅.le hu nofun
  · exact keeps h₅.le hp nofun
  · exact keeps h₅.le hg nofun

/-- A variable that only a constraint mentions is one of the function's, and alone there when it
takes the place of the other one. -/
theorem variableQueries_agree_boundedFunction :
    let ((f, v, u), st) := boundedFunction .new
    (f < st.size ∧ st.isVar v = true ∧ u < st.size ∧ st.occurs v u = false) ∧
    st.collectVars f = [v, u] ∧
    let replaced := StoreM.replaceVar f v u st
    (∀ x, x ∈ replaced.2.collectVars replaced.1 ↔ x = u) ∧
      replaced.2.occurs v replaced.1 = false := by
  obtain ⟨-, p, g, hv, hu, hp, hg, hf⟩ := shapes_boundedFunction .new
  generalize boundedFunction .new = built at hv hu hp hg hf ⊢
  obtain ⟨⟨f, v, u⟩, st⟩ := built
  dsimp only at hv hu hp hg hf ⊢
  have inner : ∀ {c : TypeId} {s : Shape TypeId}, st.shape c = s → s.isVar = false →
      st.varLeaves c = s.children.flatMap st.varLeaves := by
    intro c s h hs
    rw [varLeaves_of_not_isVar (by rw [isVar, h, hs])]
    exact congrArg (fun s : Shape TypeId => s.children.flatMap st.varLeaves) h
  have hvar : st.isVar v = true := by rw [isVar, hv]; rfl
  have hvar' : st.isVar u = true := by rw [isVar, hu]; rfl
  have hlt : f < st.size := lt_size_of_shape_ne (by simp [hf])
  have hlt' : u < st.size := lt_size_of_isVar hvar'
  have hne : u ≠ v := by
    rintro rfl
    exact absurd (hv.symm.trans hu) (by simp)
  have hleaves : st.varLeaves f = [v, v, u] := by
    rw [inner hf rfl]
    simp [Shape.children, Signature.children, inner hp rfl, inner hg rfl, varLeaves_of_isVar hvar,
      varLeaves_of_isVar hvar']
  obtain ⟨hcollect, -, hqueries⟩ := variableQueries_agree st hlt
  obtain ⟨hcollect', -, hqueries'⟩ := variableQueries_agree st hlt'
  obtain ⟨hmem, hgone⟩ := (hqueries v hvar).2 u hlt'
  rw [hleaves] at hcollect
  rw [varLeaves_of_isVar hvar'] at hcollect'
  have hf : st.collectVars f = [v, u] := by simpa [List.eraseDups_cons, hne] using hcollect
  have hu : st.collectVars u = [u] := by simpa [List.eraseDups_cons] using hcollect'
  have hnot : st.occurs v u = false := by
    rw [← Bool.not_eq_true, (hqueries' v hvar).1, hu]
    simpa using hne.symm
  refine ⟨⟨hlt, hvar, hlt', hnot⟩, hf, fun x => ?_, hgone hnot⟩
  rw [hmem, hf, hu]
  constructor
  · rintro (⟨hx, hxv⟩ | ⟨-, hx⟩)
    · simpa [hxv] using hx
    · simpa using hx
  · rintro rfl
    exact .inl ⟨by simp, hne⟩

end Store

end ConstraintTyping
