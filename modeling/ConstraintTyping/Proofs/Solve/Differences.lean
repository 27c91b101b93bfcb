import ConstraintTyping.Fault.Difference
import ConstraintTyping.Proofs.Solve.UnifyComplete

/-!
# Specific differences

The notes on a mismatch come from a comparison of its own kind: it looks for a pointer against its
target before it looks at heads, it strips qualifiers at every level, and it passes over everything
for which it has no note.  It never contradicts unification.  What it finds to differ stays different
under every replacement of variables, so two types with a note between them are never unified.
-/

namespace ConstraintTyping

/-! ## Heads and facing constituents -/

namespace Shape

variable {α β : Type} {s t : Shape α}

theorem headProblems_map (f : α → β) (s t : Shape α) :
    (s.map f).headProblems (t.map f) = s.headProblems t := by
  cases s with
  | prim p => cases p <;> cases t <;> rfl
  | _ => cases t <;> simp [headProblems, map, Signature.map]

theorem headProblems_self (s : Shape α) : s.headProblems s = [] := by
  cases s <;> simp [headProblems]

/-- Shapes of the same head have no difference between their heads. -/
theorem SameHead.headProblems_eq_nil (h : s.SameHead t) : s.headProblems t = [] := by
  cases s <;> cases t <;> simp only [SameHead] at h
  case tuple.tuple => simp [headProblems, h]
  case function.function =>
    rcases h.2 with hlen | hvariadic | hvariadic <;> simp_all [headProblems]
  all_goals rfl

theorem facingParts_map (f : α → β) (s t : Shape α) :
    (s.map f).facingParts (t.map f) = (s.facingParts t).map (Prod.map f f) := by
  cases s <;> cases t <;> try rfl
  case tuple.tuple =>
    simp only [facingParts, map, List.length_map, List.zip_map]
    split <;> rfl
  case function.function g k =>
    simp only [facingParts, map, Signature.map, List.length_map, List.zip_map]
    split <;> simp
  case product.product | sum.sum =>
    simp only [facingParts, map, List.length_map, List.zip_map]
    split <;> rfl

/-- Unification compares the constituents that are worth a note, too. -/
theorem mem_compared_of_mem_facingParts {p : α × α} (h : p ∈ s.facingParts t) :
    p ∈ s.compared t := by
  cases s <;> cases t <;> simp only [facingParts, List.not_mem_nil] at h
  case pointer.pointer | array.array => simpa [compared, children] using h
  case tuple.tuple | product.product | sum.sum =>
    split at h
    · exact h
    · cases h
  case function.function =>
    split at h
    · cases h
    · exact h

/-- Variables give no cause for a note. -/
theorem isVar_of_problems (h : s.headProblems t ≠ [] ∨ s.facingParts t ≠ []) :
    s.isVar = false ∧ t.isVar = false := by
  cases s with
  | prim p => cases p <;> cases t <;> simp_all [headProblems, facingParts, isVar]
  | _ => cases t <;> simp_all [headProblems, facingParts, isVar]

end Shape

/-! ## Notes on trees -/

namespace TypeTree

variable {s t : Shape TypeTree} {u : TypeTree}

/-- The ways in which two trees are compatible. -/
theorem Compatible.cases_mk (h : Compatible (mk s) (mk t)) :
    s = t ∨ s = .prim .error ∨ t = .prim .error ∨
      s.SameHead t ∧ ∀ p ∈ s.compared t, Compatible p.1 p.2 := by
  generalize hu : mk s = u at h
  generalize hv : mk t = v at h
  cases h with
  | refl => exact .inl (TypeTree.mk.inj (hu.trans hv.symm))
  | errorLeft => exact .inr (.inl (TypeTree.mk.inj hu))
  | errorRight => exact .inr (.inr (.inl (TypeTree.mk.inj hv)))
  | parts head h =>
    obtain rfl := TypeTree.mk.inj hu
    obtain rfl := TypeTree.mk.inj hv
    exact .inr (.inr (.inr ⟨head, h⟩))

theorem ne_error_of_faultless (h : Faultless (mk s)) : s ≠ .prim .error := by
  rintro rfl
  cases (faultless_mk.mp h).1

/-- No tree is compatible with a pointer to it: it would be a pointer to a smaller such tree. -/
theorem not_compatible_pointer (h : u.Faultless) : ¬ Compatible (mk (.pointer u)) u := by
  induction u using induction with
  | step s ih =>
    intro hc
    rcases hc.cases_mk with heq | heq | heq | ⟨hhead, hparts⟩
    · have hlt := size_lt_of_mem_children (s := .pointer (mk s)) List.mem_cons_self
      rw [heq] at hlt
      exact absurd hlt (lt_irrefl _)
    · cases heq
    · exact ne_error_of_faultless h heq
    · cases s with
      | pointer target =>
        exact ih target List.mem_cons_self ((faultless_mk.mp h).2 target List.mem_cons_self)
          (hparts _ List.mem_cons_self)
      | _ => cases hhead

theorem Compatible.headProblems_eq_nil (h : Compatible (mk s) (mk t)) (hs : Faultless (mk s))
    (ht : Faultless (mk t)) : s.headProblems t = [] := by
  rcases h.cases_mk with rfl | heq | heq | ⟨hhead, -⟩
  · exact s.headProblems_self
  · exact absurd heq (ne_error_of_faultless hs)
  · exact absurd heq (ne_error_of_faultless ht)
  · exact hhead.headProblems_eq_nil

theorem Compatible.facing (h : Compatible (mk s) (mk t)) {p : TypeTree × TypeTree}
    (hp : p ∈ s.facingParts t) : Compatible p.1 p.2 := by
  rcases h.cases_mk with rfl | rfl | rfl | ⟨-, hparts⟩
  · have heq : p.1 = p.2 :=
      Shape.eq_of_mem_compared (f := id) rfl (Shape.mem_compared_of_mem_facingParts hp)
    exact heq ▸ .refl _
  · cases hp
  · cases s <;> cases hp
  · exact hparts p (Shape.mem_compared_of_mem_facingParts hp)

end TypeTree

/-! ## Notes on types -/

theorem flatMap_attach {α β : Type} {xs : List α} {f : { x // x ∈ xs } → List β} {g : α → List β}
    (h : ∀ x, f x = g x.1) : xs.attach.flatMap f = xs.flatMap g := by
  have hval := List.flatMap_map Subtype.val g (l := xs.attach)
  rw [List.attach_map_subtype_val] at hval
  rw [hval, funext h]

namespace Store

variable {st : Store} {a b : TypeId} {σ : VarIdent → TypeTree}

open TypeTree

/-- The differences between the constituents of two types. -/
def innerDifferences (st : Store) (a b : TypeId) : List TypeProblem :=
  ((st.shape a).facingParts (st.shape b)).flatMap fun p => st.differences p.1 p.2

theorem differences_eq (st : Store) (expected found : TypeId) :
    st.differences expected found =
      if st.bare expected = st.bare found then []
      else match st.shape (st.bare expected), st.shape (st.bare found) with
        | .prim p, .prim q => Shape.primProblems p q
        | se, sf =>
          if se = .pointer (st.bare found) then [.pointerLevel false]
          else if sf = .pointer (st.bare expected) then [.pointerLevel true]
          else se.headProblems sf ++ st.innerDifferences (st.bare expected) (st.bare found) := by
  have hparts : ((st.shape (st.bare expected)).facingParts
      (st.shape (st.bare found))).attach.flatMap (fun p => st.differences p.1.1 p.1.2) =
      st.innerDifferences (st.bare expected) (st.bare found) :=
    flatMap_attach fun _ => rfl
  rw [← hparts]
  exact differences.eq_def st expected found

/-- The ways in which there is a note between two types: they are different primitives, one is a
pointer to the other, their heads differ, or there is a note between two constituents. -/
theorem differences_cases (h : st.differences a b ≠ []) : st.bare a ≠ st.bare b ∧
    ((∃ p q, st.shape (st.bare a) = .prim p ∧ st.shape (st.bare b) = .prim q) ∨
      st.shape (st.bare a) = .pointer (st.bare b) ∨ st.shape (st.bare b) = .pointer (st.bare a) ∨
      (st.shape (st.bare a)).headProblems (st.shape (st.bare b)) ≠ [] ∨
      ∃ p ∈ (st.shape (st.bare a)).facingParts (st.shape (st.bare b)),
        st.differences p.1 p.2 ≠ []) := by
  rw [differences_eq] at h
  split at h
  · exact absurd rfl h
  · next hne =>
    refine ⟨hne, ?_⟩
    split at h
    · next p q hp hq => exact .inl ⟨p, q, hp, hq⟩
    · split_ifs at h with hpointer hpointer'
      · exact .inr (.inl hpointer)
      · exact .inr (.inr (.inl hpointer'))
      · by_cases hhead : (st.shape (st.bare a)).headProblems (st.shape (st.bare b)) = []
        · rw [hhead, List.nil_append, innerDifferences, ne_eq, List.flatMap_eq_nil_iff] at h
          push Not at h
          exact .inr (.inr (.inr (.inr h)))
        · exact .inr (.inr (.inr (.inl hhead)))

theorem tree_subst_eq_mk (h : (st.shape (st.bare a)).isVar = false) : (st.tree a).subst σ =
    .mk ((st.shape (st.bare a)).map fun c => (st.tree c).subst σ) := by
  rw [tree_eq_mk, subst_mk (by rw [Shape.isVar_map, h]), Shape.map_map]
  rfl

/-- Types with a note between them have no compatible instances in which the error type does not
occur. -/
theorem not_compatible_of_differences (ha : a < st.size) (hb : b < st.size)
    (hsa : ((st.tree a).subst σ).Faultless) (hsb : ((st.tree b).subst σ).Faultless)
    (h : st.differences a b ≠ []) :
    ¬ ((st.tree a).subst σ).Compatible ((st.tree b).subst σ) := by
  induction a using Nat.strongRecOn generalizing b with
  | ind a ih =>
    intro hc
    obtain ⟨hne, ⟨p, q, hp, hq⟩ | hpointer | hpointer | hproblem⟩ := differences_cases h
    · -- different primitives are compatible only when one is the error type
      have hpq : p ≠ q := by
        rintro rfl
        exact hne (eq_of_shape_eq (bare_lt_size ha) (bare_lt_size hb) (hp.trans hq.symm))
      rw [tree_subst_eq_mk (by rw [hp]; rfl), hp] at hc hsa
      rw [tree_subst_eq_mk (by rw [hq]; rfl), hq] at hc hsb
      rcases hc.cases_mk with heq | heq | heq | ⟨hhead, -⟩
      · exact hpq (Shape.prim.inj heq)
      · exact ne_error_of_faultless hsa heq
      · exact ne_error_of_faultless hsb heq
      · cases hhead
    · rw [tree_subst_eq_mk (by rw [hpointer]; rfl), hpointer, Shape.map, tree_bare] at hc
      exact not_compatible_pointer hsb hc
    · rw [tree_subst_eq_mk (a := b) (by rw [hpointer]; rfl), hpointer, Shape.map, tree_bare] at hc
      exact not_compatible_pointer hsa hc.symm
    · have hfacing : (st.shape (st.bare a)).headProblems (st.shape (st.bare b)) ≠ [] ∨
          (st.shape (st.bare a)).facingParts (st.shape (st.bare b)) ≠ [] := by
        refine hproblem.imp_right ?_
        rintro ⟨_, hp, -⟩
        exact List.ne_nil_of_mem hp
      obtain ⟨hva, hvb⟩ := Shape.isVar_of_problems hfacing
      rw [tree_subst_eq_mk hva] at hc hsa
      rw [tree_subst_eq_mk hvb] at hc hsb
      rcases hproblem with hhead | ⟨p, hp, hinner⟩
      · have hnil := hc.headProblems_eq_nil hsa hsb
        rw [Shape.headProblems_map] at hnil
        exact hhead hnil
      · obtain ⟨h₁, h₂⟩ := Shape.mem_children_of_mem_compared
          (Shape.mem_compared_of_mem_facingParts hp)
        have hmem : Prod.map (fun c => (st.tree c).subst σ) (fun c => (st.tree c).subst σ) p ∈
            ((st.shape (st.bare a)).map fun c => (st.tree c).subst σ).facingParts
              ((st.shape (st.bare b)).map fun c => (st.tree c).subst σ) := by
          rw [Shape.facingParts_map]
          exact List.mem_map_of_mem hp
        have hpart : ∀ {s : Shape TypeId} {c : TypeId}, c ∈ s.children →
            Faultless (.mk (s.map fun c => (st.tree c).subst σ)) → ((st.tree c).subst σ).Faultless :=
          fun hc hs => (faultless_mk.mp hs).2 _ (by
            rw [Shape.children_map]; exact List.mem_map_of_mem hc)
        exact ih p.1 (Nat.lt_of_lt_of_le (lt_of_mem_children h₁) (st.table.bare_le a))
          (lt_size_of_mem_children (bare_lt_size ha) h₁)
          (lt_size_of_mem_children (bare_lt_size hb) h₂) (hpart h₁ hsa) (hpart h₂ hsb) hinner
          (hc.facing hmem)

/-- Whatever the budget, unification fails on two types in which the error type does not occur and
between which there is a note. -/
theorem unify_fails_of_differences (st : Store) (limit : Nat) (expected found : TypeId)
    (hexpected : expected < st.size) (hfound : found < st.size)
    (hsound : st.hasError expected = false) (hsound' : st.hasError found = false)
    (h : st.differences expected found ≠ []) :
    ∃ failure, (StoreM.unify limit expected found st).1 = .error failure := by
  cases hrun : (StoreM.unify limit expected found st).1 with
  | error failure => exact ⟨failure, rfl⟩
  | ok s =>
    obtain ⟨-, htrees⟩ := StoreM.unify_ok hexpected hfound hrun
    have he := (hasError_eq_false_iff hexpected).mp hsound
    have hf := (hasError_eq_false_iff hfound).mp hsound'
    have hbound := fun p hp =>
      (unifyPairs_inherited inherited_faultless (by simp [he, hf]) (by simp) htrees p hp).2
    have hc := (unify_sound htrees).2
    have hce := inherited_faultless.applyAll he hbound
    have hcf := inherited_faultless.applyAll hf hbound
    rw [applyAll_eq_subst] at hce hcf
    rw [applyAll_eq_subst, applyAll_eq_subst _ (st.tree found)] at hc
    exact absurd hc (not_compatible_of_differences hexpected hfound hce hcf h)

theorem bare_of_shape {ty : TypeId} {s : Shape TypeId} (h : st.shape ty = s)
    (hs : s.isQualified = false) : st.bare ty = ty := bare_of_not_qualified (by rw [h, hs])

/-- The pairs `(v, *v)` and `(bool, v)` over one variable. -/
def knottedPairs : StoreM (TypeId × TypeId) := do
  let v ← StoreM.namedVar "v"
  let p ← StoreM.pointer v
  return (← StoreM.tuple [v, p], ← StoreM.tuple [TypeId.bool, v])

theorem shapes_knottedPairs (st : Store) :
    knottedPairs.Yields st fun r st' => ∃ v p, st'.shape v = .var (.named "v") ∧
      st'.shape p = .pointer v ∧ st'.shape r.1 = .tuple [v, p] ∧
      st'.shape r.2 = .tuple [TypeId.bool, v] := by
  have hbool : ∀ st' : Store, st'.bare TypeId.bool = TypeId.bool := fun st' =>
    bare_of_shape (show st'.shape TypeId.bool = .prim .bool from shape_prim _) rfl
  refine (StoreM.yields_intern (s := .var (.named "v")) rfl (by simp [Shape.children])).bind
    fun v st₁ _ hmade => ?_
  obtain ⟨hv, hvs⟩ := hmade
  refine (StoreM.yields_intern (s := .pointer v) rfl (by simp [Shape.children, hv])).bind
    fun p st₂ h₂ hmade => ?_
  obtain ⟨hp, hps⟩ := hmade
  have hv₂ := lt_size_of_le h₂.le hv
  have hvs₂ := (shape_of_le h₂.le hv).trans hvs
  rw [Shape.map, bare_of_shape hvs rfl] at hps
  refine (StoreM.yields_intern (s := .tuple [v, p]) rfl (by simp [Shape.children, hv₂, hp])).bind
    fun a st₃ h₃ hmade => ?_
  obtain ⟨ha, has⟩ := hmade
  have hv₃ := lt_size_of_le h₃.le hv₂
  have hvs₃ := (shape_of_le h₃.le hv₂).trans hvs₂
  refine (StoreM.yields_intern (s := .tuple [TypeId.bool, v]) rfl
    (by simp [Shape.children, hv₃, lt_size_of_prim])).bind fun b st₄ h₄ hmade => ?_
  obtain ⟨-, hbs⟩ := hmade
  simp only [Shape.map, List.map_cons, List.map_nil, bare_of_shape hvs₂ rfl, bare_of_shape hps rfl,
    bare_of_shape hvs₃ rfl, hbool] at has hbs
  refine StoreM.yields_pure ⟨v, p, ?_, ?_, ?_, hbs⟩
  · exact (shape_of_le h₄.le hv₃).trans hvs₃
  · exact (shape_of_le (le_trans h₃.le h₄.le) hp).trans hps
  · exact (shape_of_le h₄.le ha).trans has

theorem unify_fails_of_differences_knottedPairs :
    let (r, st) := knottedPairs .new
    (r.1 < st.size ∧ r.2 < st.size ∧ st.hasError r.1 = false ∧ st.hasError r.2 = false ∧
      st.differences r.1 r.2 = [.pointerLevel false]) ∧
      ∃ failure, (StoreM.unify 1000 r.1 r.2 st).1 = .error failure := by
  obtain ⟨-, v, p, hv, hp, ha, hb⟩ := shapes_knottedPairs .new
  generalize knottedPairs .new = run at hv hp ha hb ⊢
  obtain ⟨⟨a, b⟩, st⟩ := run
  dsimp only at hv hp ha hb ⊢
  have hlt : ∀ {ty : TypeId} {s : Shape TypeId}, st.shape ty = s → s ≠ .prim .error → ty < st.size :=
    fun h hs => lt_size_of_shape_ne (h ▸ hs)
  have hbool : st.shape TypeId.bool = .prim .bool := shape_prim .bool
  have hclean : ∀ {ty : TypeId} {s : Shape TypeId}, st.shape ty = s → s ≠ .prim .error →
      s.isError = false → (∀ c ∈ s.children, st.hasError c = false) → st.hasError ty = false := by
    intro ty s h hs herror hchildren
    have hcs : st.children ty = s.children := congrArg Shape.children h
    rw [hasError_eq (hlt h hs), h, herror, hcs, Bool.false_or, List.any_eq_false]
    simpa using hchildren
  have hev := hclean hv nofun rfl (by simp [Shape.children])
  have hep := hclean hp nofun rfl (by simpa [Shape.children] using hev)
  have heb := hclean hbool nofun rfl (by simp [Shape.children])
  have hea := hclean ha nofun rfl (by simp [Shape.children, hev, hep])
  have heb' := hclean hb nofun rfl (by simp [Shape.children, hev, heb])
  have hne : ∀ {x y : TypeId}, st.shape x ≠ st.shape y → x ≠ y := fun h hxy => h (hxy ▸ rfl)
  have hva : v ≠ TypeId.bool := hne (by rw [hv, hbool]; exact nofun)
  have hvp : p ≠ v := hne (by rw [hv, hp]; exact nofun)
  have hab : a ≠ b := hne (by rw [ha, hb]; simp [hva])
  have hfirst : st.differences v TypeId.bool = [] := by
    rw [differences_eq, bare_of_shape hv rfl, bare_of_shape hbool rfl, if_neg hva, innerDifferences,
      hv, hbool]
    simp [Shape.headProblems, Shape.facingParts]
  have hsecond : st.differences p v = [.pointerLevel false] := by
    rw [differences_eq, bare_of_shape hv rfl, bare_of_shape hp rfl, if_neg hvp, hp]
    simp
  have hdiff : st.differences a b = [.pointerLevel false] := by
    rw [differences_eq, bare_of_shape ha rfl, bare_of_shape hb rfl, if_neg hab, innerDifferences, ha,
      hb]
    simp [Shape.headProblems, Shape.facingParts, hfirst, hsecond]
  refine ⟨⟨hlt ha nofun, hlt hb nofun, hea, heb', hdiff⟩, ?_⟩
  exact unify_fails_of_differences st 1000 a b (hlt ha nofun) (hlt hb nofun) hea heb'
    (by rw [hdiff]; exact List.cons_ne_nil _ _)
end Store

end ConstraintTyping
