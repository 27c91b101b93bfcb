import ConstraintTyping.Proofs.Solve.UnifySound
import ConstraintTyping.Proofs.Types.Chains

/-!
# Unification is complete and most general

Let a substitution make two types equal.  Then unification of the two finds no clash, and the
substitution absorbs all bindings that it finds.  The substitution is followed through the run: it
makes every pair that waits equal, and it makes every bound variable equal to what it is bound to.
A variable that occurs in a larger tree has a smaller image than the tree, so the occurs check never
fires; two trees without variables are their own images, so they clash only when they differ.
-/

namespace ConstraintTyping

namespace Shape

variable {α β : Type}

/-- Shapes with equal images are of one head, unless they are the same variable or primitive. -/
theorem sameHead_of_map_eq {f : α → β} {s t : Shape α} (h : s.map f = t.map f)
    (hv : s.isVar = false) (hq : s.isQualified = false) : s = t ∨ s.SameHead t := by
  cases s <;> cases t <;> simp_all [map, SameHead, isVar, isQualified]
  case tuple.tuple => exact Or.inr (by simpa using congrArg List.length h)
  case function.function g k =>
    have hparams : g.params.map f = k.params.map f := congrArg Signature.params h
    have hmeta : (g.map f).isMeta = (k.map f).isMeta := congrArg Signature.isMeta h
    exact Or.inr ⟨hmeta, Or.inl (by simpa using congrArg List.length hparams)⟩
  case product.product => exact Or.inr (by simpa using congrArg List.length h.2)
  case sum.sum => exact Or.inr (by simpa using congrArg List.length h.2)
  case trait.trait => exact Or.inr (by simpa using congrArg List.length h.2.2)

theorem eq_of_mem_zip {f : α → β} {xs ys : List α} (h : xs.map f = ys.map f) {p : α × α}
    (hp : p ∈ xs.zip ys) : f p.1 = f p.2 := by
  induction xs generalizing ys with
  | nil => simp at hp
  | cons x xs ih =>
    cases ys with
    | nil => simp at hp
    | cons y ys =>
      simp only [List.map_cons, List.cons.injEq] at h
      rcases List.mem_cons.mp hp with rfl | hp
      · exact h.1
      · exact ih h.2 hp

/-- What is compared in shapes with equal images has equal images. -/
theorem eq_of_mem_compared {f : α → β} {s t : Shape α} (h : s.map f = t.map f) {p : α × α}
    (hp : p ∈ s.compared t) : f p.1 = f p.2 := by
  have hchildren : s.children.map f = t.children.map f := by
    rw [← children_map, ← children_map, h]
  cases s <;> cases t <;> try exact eq_of_mem_zip hchildren hp
  case function.function g k =>
    have h : g.map f = k.map f := Shape.function.inj h
    rcases List.mem_append.mp hp with hp | hp
    · exact eq_of_mem_zip (congrArg Signature.params h) hp
    · rw [List.mem_singleton.mp hp]
      exact congrArg Signature.ret h

end Shape

namespace TypeTree

variable {σ : VarIdent → TypeTree} {a b : TypeTree} {x : VarIdent} {r : TypeTree}
  {limit budget : Nat} {pairs : List (TypeTree × TypeTree)} {found : Bound}

/-- A substitution cannot identify a variable with a larger tree that holds it. -/
theorem not_occurs_of_subst_eq (h : (var x).subst σ = r.subst σ) (hne : var x ≠ r) :
    ¬ Occurs x r := by
  intro hx
  have hlt := size_lt_of_occurs (σ := σ) hx hne.symm
  rw [subst_var] at h
  rw [h] at hlt
  exact Nat.lt_irrefl _ hlt

/-- What a pair of trees asks for when a substitution makes them equal: nothing, a binding
that the substitution absorbs, or pairs that it makes equal. -/
theorem move_of_subst_eq (h : a.subst σ = b.subst σ) (ha : Unqualified a) :
    (∃ x r, move a b = .ok (.bind x r) ∧ σ x = r.subst σ) ∨
    (∃ ps, move a b = .ok (.split ps) ∧ ∀ p ∈ ps, p.1.subst σ = p.2.subst σ) := by
  have hbind : ∀ {y : VarIdent} {t : TypeTree}, (var y).subst σ = t.subst σ → var y ≠ t →
      bindMove y t = .ok (.bind y t) ∧ σ y = t.subst σ := by
    intro y t ht hne
    refine ⟨if_neg (not_occurs_of_subst_eq ht hne), ?_⟩
    rw [← ht, subst_var]
  rcases move_cases a b with
    ⟨-, hm⟩ | ⟨y, hy, hab, -, -, hm⟩ | ⟨y, hy, hab, -, -, -, hm⟩ | ⟨hab, -, -, hva, hvb, hm⟩
  · exact Or.inr ⟨[], hm, by simp⟩
  · subst hy
    obtain ⟨hbm, hσ⟩ := hbind h hab
    exact Or.inl ⟨y, b, hm.trans hbm, hσ⟩
  · subst hy
    obtain ⟨hbm, hσ⟩ := hbind h.symm (Ne.symm hab)
    exact Or.inl ⟨y, a, hm.trans hbm, hσ⟩
  · obtain ⟨s⟩ := a
    obtain ⟨t⟩ := b
    simp only [shape_mk] at hva hvb
    have hmap : s.map (subst σ) = t.map (subst σ) := by
      rw [subst_mk hva, subst_mk hvb] at h
      exact mk.inj h
    have hhead : s.SameHead t := by
      rcases Shape.sameHead_of_map_eq hmap hva ha.isQualified with hst | hh
      · exact absurd (congrArg mk hst) hab
      · exact hh
    have hgen : ¬ (¬ Generic (mk s) ∧ ¬ Generic (mk t)) := by
      rintro ⟨hs, ht⟩
      rw [subst_eq_self fun x hx => absurd ⟨x, hx⟩ hs,
        subst_eq_self fun x hx => absurd ⟨x, hx⟩ ht] at h
      exact hab h
    refine Or.inr ⟨s.compared t, ?_, fun p hp => Shape.eq_of_mem_compared hmap hp⟩
    rw [hm, splitMove, if_neg hgen, if_pos (show (mk s).shape.SameHead (mk t).shape from hhead)]
    rfl

/-- A run over pairs that a substitution makes equal runs out of steps or succeeds with
bindings that the substitution absorbs. -/
theorem unifyPairs_complete (hpairs : ∀ p ∈ pairs, p.1.subst σ = p.2.subst σ)
    (hbare : ∀ p ∈ pairs, Unqualified p.1 ∧ Unqualified p.2)
    (hfound : ∀ p ∈ found, σ p.1 = p.2.subst σ) (hran : ∀ p ∈ found, Unqualified p.2) :
    (∃ bs, unifyPairs limit budget pairs found = .error (.stepLimit limit, bs)) ∨
    (∃ bs, unifyPairs limit budget pairs found = .ok bs ∧ ∀ p ∈ bs, σ p.1 = p.2.subst σ) := by
  induction budget generalizing pairs found with
  | zero =>
    cases pairs with
    | nil => exact Or.inr ⟨found, by rw [unifyPairs], hfound⟩
    | cons p rest => exact Or.inl ⟨found, by rw [unifyPairs]⟩
  | succ budget ih =>
    cases pairs with
    | nil => exact Or.inr ⟨found, by rw [unifyPairs], hfound⟩
    | cons p rest =>
      obtain ⟨a, b⟩ := p
      obtain ⟨hab, hrest⟩ := List.forall_mem_cons.mp hpairs
      obtain ⟨⟨ha, hb⟩, hbareRest⟩ := List.forall_mem_cons.mp hbare
      have ha' := inherited_unqualified.applyAll ha hran
      have hb' := inherited_unqualified.applyAll hb hran
      have hread : (applyAll found a).subst σ = (applyAll found b).subst σ := by
        rw [subst_applyAll hfound, subst_applyAll hfound]
        exact hab
      rw [unifyPairs]
      rcases move_of_subst_eq hread ha' with ⟨x, r, hm, hσ⟩ | ⟨ps, hm, hps⟩
      · rw [hm]
        refine ih hrest hbareRest (List.forall_mem_cons.mpr ⟨hσ, hfound⟩)
          (List.forall_mem_cons.mpr ⟨?_, hran⟩)
        rcases (move_bind hm).2 with ⟨-, rfl⟩ | ⟨-, rfl⟩
        · exact hb'
        · exact ha'
      · rw [hm]
        refine ih (List.forall_mem_append.mpr ⟨hps, hrest⟩)
          (List.forall_mem_append.mpr ⟨fun p hp => ?_, hbareRest⟩) hfound hran
        rcases move_split hm with ⟨rfl, -⟩ | ⟨-, rfl⟩
        · simp at hp
        · obtain ⟨h₁, h₂⟩ := Shape.mem_children_of_mem_compared hp
          exact ⟨inherited_unqualified.child ha' h₁, inherited_unqualified.child hb' h₂⟩

/-- Two trees that a substitution makes equal. -/
theorem unify_complete (limit budget : Nat) (h : a.subst σ = b.subst σ) (ha : Unqualified a) (hb : Unqualified b) :
    (∃ bs, unifyPairs limit budget [(a, b)] [] = .error (.stepLimit limit, bs)) ∨
    (∃ bs, unifyPairs limit budget [(a, b)] [] = .ok bs ∧
      ∀ t, (applyAll bs t).subst σ = t.subst σ) := by
  have hpair : ∀ p ∈ [(a, b)], p.1.subst σ = p.2.subst σ := List.forall_mem_singleton.mpr h
  have hbare : ∀ p ∈ [(a, b)], Unqualified p.1 ∧ Unqualified p.2 :=
    List.forall_mem_singleton.mpr ⟨ha, hb⟩
  refine (unifyPairs_complete hpair hbare (by simp) (by simp)).imp_right ?_
  rintro ⟨bs, hok, hbs⟩
  exact ⟨bs, hok, subst_applyAll hbs⟩

end TypeTree

/-! ## In a store -/

namespace Bindings

open Store

/-- Applying bindings to types without qualifiers keeps the chain of a type. -/
theorem yields_apply_chain {st : Store} {b : Bindings} {ty : TypeId} (hwell : st.WellQualified)
    (hb : b.Within st) (hbare : ∀ p ∈ b.pairs, st.bare p.2 = p.2) (hty : ty < st.size) :
    (b.apply ty).Yields st fun r st' => st'.qualifiers r = st.qualifiers ty := by
  have hfold : ∀ (ps : List (TypeId × TypeId)) (ty : TypeId) (st' : Store), Steps st st' →
      (∀ p ∈ ps, p ∈ b.pairs) → ty < st'.size →
      (ps.foldlM (fun ty (p : TypeId × TypeId) => StoreM.replaceVar ty p.1 p.2) ty).Yields st'
        fun r st'' => st''.qualifiers r = st'.qualifiers ty := by
    intro ps
    induction ps with
    | nil => exact fun _ _ _ _ _ => StoreM.yields_pure rfl
    | cons p ps ih =>
      intro ty st' hs hps hty
      have hp := hps p List.mem_cons_self
      rw [List.foldlM_cons]
      have hone : (StoreM.replaceVar ty p.1 p.2).Yields st' fun r st'' =>
          r < st''.size ∧ st''.qualifiers r = st'.qualifiers ty := by
        refine (StoreM.yields_mapVars_chain (hwell.steps hs) (fun v hv => ?_) .refl hty).mono
          fun r st'' _ hr => ⟨hr.1, hr.2.2⟩
        by_cases hvp : v = p.1
        · rw [if_pos hvp, bare_of_le hs.le (hb p hp).2]
          exact ⟨lt_size_of_le hs.le (hb p hp).2, hbare p hp⟩
        · obtain ⟨x, hx⟩ := Shape.isVar_iff.mp hv
          have hx : st'.shape v = .var x := hx
          rw [if_neg hvp]
          exact ⟨lt_size_of_isVar hv, bare_of_not_qualified (by rw [hx]; rfl)⟩
      refine hone.bind fun r st₁ hs₁ ⟨hr, hq⟩ => ?_
      exact (ih r st₁ (hs.trans hs₁) (fun q hq => hps q (List.mem_cons_of_mem p hq)) hr).mono
        fun r' st₂ _ hr' => hr'.trans hq
  unfold apply
  refine StoreM.yields_get_bind ?_
  by_cases hg : st.isGeneric ty = true
  · rw [if_pos hg]
    exact hfold _ ty st .refl (fun p hp => List.mem_reverse.mp hp) hty
  · rw [if_neg hg]
    exact StoreM.yields_pure rfl

end Bindings

namespace StoreM

open Store TypeTree

variable {st : Store} {limit : Nat} {a b : TypeId} {σ : TypeId → TypeId}

/-- An assignment of types without qualifiers stays one in every later store. -/
theorem assignment_of_steps (hσ : ∀ v, σ v < st.size ∧ st.bare (σ v) = σ v) {st' : Store}
    (hs : Steps st st') (v : TypeId) : σ v < st'.size ∧ st'.bare (σ v) = σ v :=
  ⟨lt_size_of_le hs.le (hσ v).1, by rw [bare_of_le hs.le (hσ v).1, (hσ v).2]⟩

/-- An assignment makes two types equal under their qualifiers when it makes their trees equal. -/
theorem bare_mapVars_eq_iff (hst : st.WellQualified) (ha : a < st.size) (hb : b < st.size)
    (hσ : ∀ v, σ v < st.size ∧ st.bare (σ v) = σ v) :
    (let l := mapVars σ a st
      let r := mapVars σ b l.2
      r.2.bare l.1 = r.2.bare r.1) ↔
      (st.tree a).subst (st.readVars σ) = (st.tree b).subst (st.readVars σ) := by
  obtain ⟨hs₁, hl, hlread, -⟩ := yields_mapVars_chain hst (fun v _ => hσ v) .refl ha
  obtain ⟨hs₂, hr, hrread, -⟩ := yields_mapVars_chain hst (fun v _ => hσ v) hs₁ hb
  rw [← hlread, ← hrread, ← tree_of_le hs₂.le hl, tree_eq_iff (lt_size_of_le hs₂.le hl) hr]

/-- Types that an assignment makes equal do not clash. -/
theorem error_of_subst_eq (ha : a < st.size) (hb : b < st.size) {τ : VarIdent → TypeTree}
    (h : (st.tree a).subst τ = (st.tree b).subst τ) {f : UnifyFailure}
    (hf : (unify limit a b st).1 = .error f) : f.error = .stepLimit limit := by
  have hreads := (yields_unify limit ha hb).result
  rw [hf] at hreads
  have hrun := hreads.2
  rcases unify_complete limit limit h (unqualified_tree st a)
    (unqualified_tree st b) with ⟨bs, hlim⟩ | ⟨bs, hok, -⟩
  · rw [hlim] at hrun
    have hread : f.error.read (unify limit a b st).2 = .stepLimit limit :=
      (Prod.mk.inj (Except.error.inj hrun)).1.symm
    cases he : f.error <;> rw [he] at hread <;> simp_all [UnifyError.read]
  · rw [hok] at hrun
    cases hrun

/-- An assignment that makes two types equal absorbs the bindings found for them, on every type of
every later store and with its qualifiers. -/
theorem mapVars_apply_eq (hst : st.Reachable) (ha : a < st.size) (hb : b < st.size)
    (hσ : ∀ v, σ v < st.size ∧ st.bare (σ v) = σ v)
    (heq : let l := mapVars σ a st
      let r := mapVars σ b l.2
      r.2.bare l.1 = r.2.bare r.1)
    {s : Bindings} (hok : (unify limit a b st).1 = .ok s) {st' : Store}
    (hs : Steps (unify limit a b st).2 st') {t : TypeId} (ht : t < st'.size) :
    let u := s.apply t st'
    let l := mapVars σ u.1 u.2
    let r := mapVars σ t l.2
    l.1 = r.1 := by
  intro u l r
  obtain ⟨hsteps, hreads⟩ := yields_unify limit ha hb
  rw [hok] at hreads
  obtain ⟨hwithin, hbare, hrun⟩ := hreads
  have hst' : st'.Reachable := (hst.steps hsteps).steps hs
  have hwithin' := hwithin.of_le hs.le
  have hbare' : ∀ p ∈ s.pairs, st'.bare p.2 = p.2 := fun p hp => by
    rw [bare_of_le hs.le (hwithin p hp).2, hbare p hp]
  obtain ⟨hsu, hu, huread⟩ := Bindings.yields_apply hwithin' ht
  have huchain := (Bindings.yields_apply_chain hst'.wellQualified hwithin' hbare' ht).result
  have hsteps' : Steps st u.2 := (hsteps.trans hs).trans hsu
  have hσu := assignment_of_steps hσ hsteps'
  have hwell : u.2.WellQualified := (hst'.steps hsu).wellQualified
  have htu : t < u.2.size := lt_size_of_le hsu.le ht
  obtain ⟨hsl, hl, hlread, hlchain⟩ := yields_mapVars_chain hwell (fun v _ => hσu v) .refl hu
  obtain ⟨hsr, hr, hrread, hrchain⟩ := yields_mapVars_chain hwell (fun v _ => hσu v) hsl htu
  have hl' : l.1 < r.2.size := lt_size_of_le hsr.le hl
  refine eq_of_qualifiers_eq hl' hr ?_ ?_
  · rw [qualifiers_of_le hsr.le hl, hlchain, hrchain, huchain, qualifiers_of_le hsu.le ht]
  · -- under the qualifiers both sides read as the assignment applied to the tree of `t`
    rw [← tree_eq_iff hl' hr, tree_of_le hsr.le hl, hlread, hrread, huread,
      tree_of_le hsu.le ht, Bindings.read_of_le hwithin hs.le]
    have htrees : (st.tree a).subst (u.2.readVars σ) = (st.tree b).subst (u.2.readVars σ) := by
      have hlater : ∀ ty,
          (st.tree ty).subst (u.2.readVars σ) = (st.tree ty).subst (st.readVars σ) :=
        fun ty => subst_readVars_of_le hsteps'.le fun v _ => (hσ v).1
      rw [hlater, hlater]
      exact (bare_mapVars_eq_iff hst.wellQualified ha hb hσ).mp heq
    rcases unify_complete limit limit htrees (unqualified_tree st a)
      (unqualified_tree st b) with ⟨bs, hlim⟩ | ⟨bs, hbs, habsorb⟩
    · rw [hlim] at hrun
      cases hrun
    · obtain rfl : bs = s.read (unify limit a b st).2 := by
        rw [hbs] at hrun
        exact Except.ok.inj hrun
      exact habsorb _

/-- Let an assignment of types without qualifiers to variables make two types equal under their
qualifiers.  Then unification of the types ends with the step limit or with bindings, never with a
clash.  The bindings unify plain types, and the assignment absorbs them: they are a most general
unifier. -/
theorem unify_most_general (st : Store) (hst : st.Reachable) (limit : Nat) (a b : TypeId)
    (ha : a < st.size) (hb : b < st.size) (σ : TypeId → TypeId)
    (hσ : ∀ v, σ v < st.size ∧ st.bare (σ v) = σ v)
    (heq : let l := mapVars σ a st
      let r := mapVars σ b l.2
      r.2.bare l.1 = r.2.bare r.1) :
    match (unify limit a b st).1 with
    | .error failure => failure.error = .stepLimit limit
    | .ok s =>
      (let l := s.apply a (unify limit a b st).2
        let r := s.apply b l.2
        st.Plain a → st.Plain b → r.2.bare l.1 = r.2.bare r.1) ∧
      ∀ st', Steps (unify limit a b st).2 st' → ∀ t < st'.size,
        let u := s.apply t st'
        let l := mapVars σ u.1 u.2
        let r := mapVars σ t l.2
        l.1 = r.1 := by
  cases hres : (unify limit a b st).1 with
  | error f =>
    exact error_of_subst_eq ha hb ((bare_mapVars_eq_iff hst.wellQualified ha hb hσ).mp heq) hres
  | ok s =>
    refine ⟨fun hpa hpb => ?_, fun st' hs t ht => mapVars_apply_eq hst ha hb hσ heq hres hs ht⟩
    obtain ⟨bs, hrun, ⟨hl, hlread⟩, hr, hrread⟩ := unify_apply ha hb hres
    rw [← tree_eq_iff hl hr, hlread, hrread]
    exact unify_eq_of_plain (plain_iff.mp hpa) (plain_iff.mp hpb) hrun

/-- `bool` for every variable but `w`, which becomes `ty`. -/
def assignW (st : Store) (ty v : TypeId) : TypeId :=
  if st.shape v = .var (.named "w") then ty else TypeId.bool

theorem assignW_spec {q : TypeId} (hq : q < st.size) (hbare : (st.shape q).isQualified = false)
    (v : TypeId) : assignW st q v < st.size ∧ st.bare (assignW st q v) = assignW st q v := by
  unfold assignW
  split
  · exact ⟨hq, bare_of_not_qualified hbare⟩
  · exact ⟨lt_size_of_prim .bool, bare_of_not_qualified (by rw [shape_prim]; rfl)⟩

theorem readVars_assignW {q : TypeId} {name : Name} (h : ∃ v, st.shape v = .var (.named name)) :
    st.readVars (assignW st q) (.named name) = if name = "w" then st.tree q else .prim .bool := by
  obtain ⟨v, hv⟩ := h
  rw [readVars_eq hv, assignW, hv]
  by_cases hn : name = "w"
  · rw [if_pos hn, if_pos (by rw [hn])]
  · rw [if_neg hn, if_neg (by simpa using hn), tree_prim]

/-- The pairs `(v, *v)` and `(bool, w)` become equal when `w` becomes `*bool`. -/
theorem subst_assignW {q : TypeId}
    (ha : st.tree a = TypeTree.tuple [var (.named "v"), .mk (.pointer (var (.named "v")))])
    (hb : st.tree b = TypeTree.tuple [.prim .bool, var (.named "w")])
    (hq : st.tree q = .mk (.pointer (.prim .bool))) :
    (st.tree a).subst (st.readVars (assignW st q)) =
      (st.tree b).subst (st.readVars (assignW st q)) := by
  have hva : (st.tree a).Occurs (.named "v") := by
    simp [ha, TypeTree.tuple, occurs_mk, Shape.children, Shape.varIdent?]
  have hwb : (st.tree b).Occurs (.named "w") := by
    simp [hb, TypeTree.tuple, occurs_mk, Shape.children, Shape.varIdent?]
  have hv : st.readVars (assignW st q) (.named "v") = .prim .bool :=
    readVars_assignW (exists_var_of_occurs hva)
  have hw : st.readVars (assignW st q) (.named "w") = .mk (.pointer (.prim .bool)) :=
    (readVars_assignW (exists_var_of_occurs hwb)).trans hq
  rw [ha, hb]
  show subst _ (mk (.tuple _)) = subst _ (mk (.tuple _))
  rw [subst_mk rfl, subst_mk rfl]
  simp only [Shape.map, List.map_cons, List.map_nil, subst_var, subst_prim, hv, hw]
  rw [subst_mk rfl, Shape.map, subst_var, hv]

theorem unify_most_general_crossedPairs :
    let p := crossedPairs .new
    let q := pointer TypeId.bool p.2
    let σ := assignW q.2 q.1
    q.2.Reachable ∧ ∃ s, (unify 4 p.1.1 p.1.2 q.2).1 = .ok s ∧
      ∀ t < (unify 4 p.1.1 p.1.2 q.2).2.size,
        let u := s.apply t (unify 4 p.1.1 p.1.2 q.2).2
        let l := mapVars σ u.1 u.2
        let r := mapVars σ t l.2
        l.1 = r.1 := by
  obtain ⟨hs, ha, hb, hat, hbt⟩ := yields_crossedPairs .new
  have hbool : TypeId.bool < (crossedPairs .new).2.size := lt_size_of_prim .bool
  obtain ⟨hs', hq, hqt⟩ := yields_pointer hbool
  have hst : (pointer TypeId.bool (crossedPairs .new).2).2.Reachable := hs.trans hs'
  rw [tree_prim] at hqt
  rw [← tree_of_le hs'.le ha] at hat
  rw [← tree_of_le hs'.le hb] at hbt
  have ha' := lt_size_of_le hs'.le ha
  have hb' := lt_size_of_le hs'.le hb
  obtain ⟨s, hok⟩ := exists_unify_ok ha' hb' (by rw [hat, hbt]; exact unifyPairs_crossed)
  have hσ := assignW_spec hq (isQualified_intern rfl)
  have hgen := unify_most_general _ hst 4 _ _ ha' hb' _ hσ
    ((bare_mapVars_eq_iff hst.wellQualified ha' hb' hσ).mpr (subst_assignW hat hbt hqt))
  rw [hok] at hgen
  exact ⟨hst, s, hok, hgen.2 _ .refl⟩

end StoreM

end ConstraintTyping
