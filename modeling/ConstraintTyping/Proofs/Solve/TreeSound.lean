import ConstraintTyping.Proofs.Solve.TreeUnify

/-!
# Unification of trees is sound

Bindings found by unification make the two trees compatible.  One move either settles its pair, or
binds a variable that the rest of the run will never see again, or leaves the pair to its
constituents.  Compatibility is kept by replacement, so what one move settles stays settled under
all bindings that follow.
-/

namespace ConstraintTyping

namespace TypeTree

variable {a b : TypeTree} {x : VarIdent} {r : TypeTree} {limit budget : Nat}
  {pairs ps : List (TypeTree × TypeTree)} {found s : Bound}

theorem move_bind (h : move a b = .ok (.bind x r)) :
    ¬ Occurs x r ∧ ((a = var x ∧ b = r) ∨ (b = var x ∧ a = r)) := by
  have hbind : ∀ {y : VarIdent} {t : TypeTree}, bindMove y t = .ok (.bind x r) →
      ¬ Occurs x r ∧ y = x ∧ t = r := by
    intro y t ht
    unfold bindMove at ht
    split at ht
    · cases ht
    · next ho =>
      obtain ⟨rfl, rfl⟩ : y = x ∧ t = r := by simpa using ht
      exact ⟨ho, rfl, rfl⟩
  rcases move_cases a b with
    ⟨-, hm⟩ | ⟨y, ha, -, -, -, hm⟩ | ⟨y, hb, -, -, -, -, hm⟩ | ⟨-, -, -, -, -, hm⟩
  · rw [hm] at h
    cases h
  · obtain ⟨ho, rfl, hr⟩ := hbind (hm ▸ h)
    exact ⟨ho, Or.inl ⟨ha, hr⟩⟩
  · obtain ⟨ho, rfl, hr⟩ := hbind (hm ▸ h)
    exact ⟨ho, Or.inr ⟨hb, hr⟩⟩
  · rw [hm, splitMove] at h
    split_ifs at h
    cases h

theorem move_split (h : move a b = .ok (.split ps)) :
    (ps = [] ∧ Compatible a b) ∨
      (a.shape.SameHead b.shape ∧ ps = a.shape.compared b.shape) := by
  have hbind : ∀ {y : VarIdent} {t : TypeTree}, bindMove y t ≠ .ok (.split ps) := by
    intro y t ht
    unfold bindMove at ht
    split_ifs at ht
    cases ht
  rcases move_cases a b with
    ⟨hsame, hm⟩ | ⟨y, -, -, -, -, hm⟩ | ⟨y, -, -, -, -, -, hm⟩ | ⟨-, -, -, -, -, hm⟩
  · obtain rfl : [] = ps := by simpa [hm] using h
    refine Or.inl ⟨rfl, ?_⟩
    rcases hsame with rfl | rfl | rfl
    · exact .refl _
    · exact .errorLeft _
    · exact .errorRight _
  · exact absurd (hm ▸ h) hbind
  · exact absurd (hm ▸ h) hbind
  · rw [hm, splitMove] at h
    split_ifs at h with _ hh
    obtain rfl : a.shape.compared b.shape = ps := by simpa using h
    exact Or.inr ⟨hh, rfl⟩

/-- A pair that clashes is to blame itself: its trees differ, and they have different heads, or one
is a variable of the other, or the counts of their constituents differ. -/
theorem move_error {clash : Clash} (h : move a b = .error clash) : a ≠ b ∧
    (clash = .mismatch a b ∨
      (∃ x r, clash = .infinite (var x) r ∧ Occurs x r ∧
        ((a = var x ∧ b = r) ∨ (b = var x ∧ a = r))) ∨
      ∃ m n kind, clash = .arity m n kind ∧ ¬ a.shape.SameHead b.shape ∧
        a.shape.counts? b.shape = some (m, n, kind)) := by
  have hbind : ∀ {y : VarIdent} {t : TypeTree}, bindMove y t = .error clash →
      clash = .infinite (var y) t ∧ Occurs y t := by
    intro y t ht
    unfold bindMove at ht
    split_ifs at ht with ho
    exact ⟨(Except.error.inj ht).symm, ho⟩
  rcases move_cases a b with
    ⟨-, hm⟩ | ⟨y, ha, hab, -, -, hm⟩ | ⟨y, hb, hab, -, -, -, hm⟩ | ⟨hab, -, -, -, -, hm⟩
  · rw [hm] at h
    cases h
  · obtain ⟨hc, ho⟩ := hbind (hm ▸ h)
    exact ⟨hab, .inr (.inl ⟨y, b, hc, ho, .inl ⟨ha, rfl⟩⟩)⟩
  · obtain ⟨hc, ho⟩ := hbind (hm ▸ h)
    exact ⟨hab, .inr (.inl ⟨y, a, hc, ho, .inr ⟨hb, rfl⟩⟩)⟩
  · refine ⟨hab, ?_⟩
    rw [hm, splitMove] at h
    split_ifs at h with _ hh
    · exact .inl (Except.error.inj h).symm
    · have hc : headClash a b = clash := Except.error.inj h
      unfold headClash at hc
      split at hc
      · next m n kind hcounts => exact .inr (.inr ⟨m, n, kind, hc.symm, hh, hcounts⟩)
      · exact .inl hc.symm

/-- A pair read through triangular bindings asks for a binding in which no bound variable occurs. -/
theorem Triangular.not_occurs_bind (h : Triangular found)
    (hm : move (applyAll found a) (applyAll found b) = .ok (.bind x r)) {y : VarIdent}
    (hy : y ∈ found.map Prod.fst) : ¬ Occurs y (var x) ∧ ¬ Occurs y r := by
  rcases (move_bind hm).2 with ⟨h₁, h₂⟩ | ⟨h₁, h₂⟩ <;> rw [← h₁, ← h₂] <;>
    exact ⟨h.not_occurs hy _, h.not_occurs hy _⟩

/-- The binding that a pair asks for keeps triangular bindings triangular. -/
theorem Triangular.bind (h : Triangular found)
    (hm : move (applyAll found a) (applyAll found b) = .ok (.bind x r)) :
    Triangular ((x, r) :: found) :=
  .cons (fun hx => (h.not_occurs_bind hm hx).1 (by simp)) (move_bind hm).1
    (fun _ hy => (h.not_occurs_bind hm hy).2) h

/-- What a pair read through triangular bindings gives way to has been read through them with it. -/
theorem Triangular.applyAll_split (h : Triangular found)
    (hm : move (applyAll found a) (applyAll found b) = .ok (.split ps)) {p : TypeTree × TypeTree}
    (hp : p ∈ ps) : applyAll found p.1 = p.1 ∧ applyAll found p.2 = p.2 := by
  rcases move_split hm with ⟨rfl, -⟩ | ⟨-, rfl⟩
  · cases hp
  · obtain ⟨h₁, h₂⟩ := Shape.mem_children_of_mem_compared hp
    exact ⟨h.applyAll_child h₁, h.applyAll_child h₂⟩

/-- The ways in which a run on a nonempty list goes on to success. -/
theorem unifyPairs_cons_ok {p : TypeTree × TypeTree} {rest : List (TypeTree × TypeTree)}
    (h : unifyPairs limit (budget + 1) (p :: rest) found = .ok s) :
    (∃ x r, move (applyAll found p.1) (applyAll found p.2) = .ok (.bind x r) ∧
      unifyPairs limit budget rest ((x, r) :: found) = .ok s) ∨
    (∃ ps, move (applyAll found p.1) (applyAll found p.2) = .ok (.split ps) ∧
      unifyPairs limit budget (ps ++ rest) found = .ok s) := by
  obtain ⟨a, b⟩ := p
  rw [unifyPairs] at h
  cases hm : move (applyAll found a) (applyAll found b) with
  | error c => rw [hm] at h; cases h
  | ok m =>
    rw [hm] at h
    cases m with
    | bind x r => exact Or.inl ⟨x, r, rfl, h⟩
    | split ps => exact Or.inr ⟨ps, rfl, h⟩

/-! ## What the bindings found are made of -/

/-- What holds of the pairs and is inherited holds of both sides of every binding found. -/
theorem unifyPairs_inherited {P : TypeTree → Prop} (hP : Inherited P)
    (hpairs : ∀ p ∈ pairs, P p.1 ∧ P p.2) (hfound : ∀ p ∈ found, P (var p.1) ∧ P p.2)
    (h : unifyPairs limit budget pairs found = .ok s) : ∀ p ∈ s, P (var p.1) ∧ P p.2 := by
  induction budget generalizing pairs found with
  | zero =>
    cases pairs with
    | nil => obtain rfl : found = s := by simpa [unifyPairs] using h
             exact hfound
    | cons p rest => simp [unifyPairs] at h
  | succ budget ih =>
    cases pairs with
    | nil => obtain rfl : found = s := by simpa [unifyPairs] using h
             exact hfound
    | cons p rest =>
      obtain ⟨hp, hrest⟩ := List.forall_mem_cons.mp hpairs
      have hran : ∀ q ∈ found, P q.2 := fun q hq => (hfound q hq).2
      have ha := hP.applyAll hp.1 hran
      have hb := hP.applyAll hp.2 hran
      rcases unifyPairs_cons_ok h with ⟨x, r, hm, h⟩ | ⟨ps, hm, h⟩
      · refine ih hrest (List.forall_mem_cons.mpr ⟨?_, hfound⟩) h
        rcases (move_bind hm).2 with ⟨h₁, h₂⟩ | ⟨h₁, h₂⟩
        · rw [h₁] at ha
          exact ⟨ha, h₂ ▸ hb⟩
        · rw [h₁] at hb
          exact ⟨hb, h₂ ▸ ha⟩
      · refine ih (List.forall_mem_append.mpr ⟨fun q hq => ?_, hrest⟩) hfound h
        rcases move_split hm with ⟨rfl, -⟩ | ⟨-, rfl⟩
        · simp at hq
        · obtain ⟨h₁, h₂⟩ := Shape.mem_children_of_mem_compared hq
          exact ⟨hP.child ha h₁, hP.child hb h₂⟩

/-! ## Soundness -/

/-- Bindings under which every pair is compatible. -/
def Solves (s : Bound) (pairs : List (TypeTree × TypeTree)) : Prop :=
  ∀ p ∈ pairs, Compatible (applyAll s p.1) (applyAll s p.2)

/-- Constituents that are solved solve the trees of one head they belong to. -/
theorem compatible_of_compared (hh : a.shape.SameHead b.shape)
    (h : Solves s (a.shape.compared b.shape)) : Compatible (applyAll s a) (applyAll s b) := by
  obtain ⟨t⟩ := a
  obtain ⟨u⟩ := b
  simp only [shape_mk] at hh h
  obtain ⟨ht, hu⟩ := hh.isVar_eq
  rw [applyAll_mk s ht, applyAll_mk s hu]
  refine .parts ((Shape.sameHead_map _ t u).mpr hh) fun p hp => ?_
  rw [Shape.compared_map] at hp
  obtain ⟨q, hq, rfl⟩ := List.mem_map.mp hp
  exact h q hq

/-- A run goes on from triangular bindings to triangular bindings that solve all its pairs. -/
theorem unifyPairs_sound (hfound : Triangular found)
    (h : unifyPairs limit budget pairs found = .ok s) :
    ∃ more, s = more ++ found ∧ Triangular s ∧ Solves s pairs := by
  induction budget generalizing pairs found with
  | zero =>
    cases pairs with
    | nil =>
      obtain rfl : found = s := by simpa [unifyPairs] using h
      exact ⟨[], rfl, hfound, by simp [Solves]⟩
    | cons p rest => simp [unifyPairs] at h
  | succ budget ih =>
    cases pairs with
    | nil =>
      obtain rfl : found = s := by simpa [unifyPairs] using h
      exact ⟨[], rfl, hfound, by simp [Solves]⟩
    | cons p rest =>
      -- a pair is solved once its reading through the bindings found so far is
      have hread : ∀ more, Compatible (applyAll (more ++ found) (applyAll found p.1))
          (applyAll (more ++ found) (applyAll found p.2)) →
          Compatible (applyAll (more ++ found) p.1) (applyAll (more ++ found) p.2) := by
        intro more hc
        rwa [hfound.applyAll_append_applyAll, hfound.applyAll_append_applyAll] at hc
      rcases unifyPairs_cons_ok h with ⟨x, r, hm, h⟩ | ⟨ps, hm, h⟩
      · obtain ⟨hxr, hside⟩ := move_bind hm
        obtain ⟨more, rfl, htri, hsol⟩ := ih (hfound.bind hm) h
        refine ⟨more ++ [(x, r)], by simp, htri, List.forall_mem_cons.mpr ⟨?_, hsol⟩⟩
        have heq : applyAll (more ++ (x, r) :: found) (var x) =
            applyAll (more ++ (x, r) :: found) r := by
          have hvar : applyAll found (var x) = var x :=
            applyAll_eq_self fun y hy => (hfound.not_occurs_bind hm hy).1
          have hr : applyAll found r = r :=
            applyAll_eq_self fun y hy => (hfound.not_occurs_bind hm hy).2
          rw [applyAll_append, applyAll_append, applyAll_cons, applyAll_cons, hvar, hr,
            replace_var_self, replace_eq_self hxr]
        rw [← List.singleton_append, ← List.append_assoc] at heq ⊢
        apply hread
        rcases hside with ⟨h₁, h₂⟩ | ⟨h₁, h₂⟩ <;> rw [h₁, h₂, heq] <;> exact .refl _
      · obtain ⟨more, rfl, htri, hsol⟩ := ih hfound h
        obtain ⟨hps, hrest⟩ := List.forall_mem_append.mp hsol
        refine ⟨more, rfl, htri, List.forall_mem_cons.mpr ⟨hread more ?_, hrest⟩⟩
        rcases move_split hm with ⟨rfl, hc⟩ | ⟨hh, rfl⟩
        · exact hc.applyAll _
        · exact compatible_of_compared hh hps

/-- Bindings found for two trees make them compatible. -/
theorem unify_sound {a b : TypeTree} (h : unifyPairs limit budget [(a, b)] [] = .ok s) :
    Triangular s ∧ Compatible (applyAll s a) (applyAll s b) := by
  obtain ⟨_, _, htri, hsol⟩ := unifyPairs_sound .nil h
  exact ⟨htri, hsol (a, b) List.mem_cons_self⟩

/-- Bindings found for two plain trees make them equal. -/
theorem unify_eq_of_plain {a b : TypeTree} (ha : Plain a) (hb : Plain b)
    (h : unifyPairs limit budget [(a, b)] [] = .ok s) : applyAll s a = applyAll s b := by
  have hran : ∀ p ∈ s, Plain p.2 := fun p hp =>
    (unifyPairs_inherited inherited_plain (by simp [ha, hb]) (by simp) h p hp).2
  exact (unify_sound h).2.eq_of_plain (inherited_plain.applyAll ha hran)
    (inherited_plain.applyAll hb hran)

end TypeTree

end ConstraintTyping
