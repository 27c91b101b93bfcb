import ConstraintTyping.Proofs.Solve.TreeSound

/-!
# Unification level by level

A pair that gives way to its constituents hands on what was found for them, and the level above puts
it behind what it has found itself.  The bindings that are assembled on the way out are those that
one list would have held (`StoreM.unifyAll_settles`): a pair is read through the bindings of its level
before it gives way, so none of their variables is left in its constituents, and reading these through
the bindings of their own level alone is reading them through all bindings found so far.

`StoreM.unify_eq_settle` therefore carries over to unification what holds of `StoreM.settle`.
-/

namespace ConstraintTyping

namespace TypeTree

theorem Triangular.of_append {new old : Bound} (h : Triangular (new ++ old)) : Triangular old := by
  induction new with
  | nil => exact h
  | cons p new ih =>
    cases h with
    | cons _ _ _ h => exact ih h

end TypeTree

/-! ## Bindings put together -/

namespace Bindings

open Store TypeTree

variable {st st' : Store} {b outer found : Bindings} {ty : TypeId}

theorem andThen_assoc (a b c : Bindings) : (a.andThen b).andThen c = a.andThen (b.andThen c) :=
  congrArg Bindings.mk (List.append_assoc _ _ _).symm

@[simp] theorem andThen_empty (b : Bindings) : b.andThen .empty = b := rfl

@[simp] theorem empty_andThen (b : Bindings) : empty.andThen b = b :=
  congrArg Bindings.mk (List.append_nil _)

/-- Triangular bindings of a store to types without qualifiers. -/
structure Ordered (b : Bindings) (st : Store) : Prop where
  within : b.Within st
  bare : ∀ p ∈ b.pairs, st.bare p.2 = p.2
  triangular : Triangular (b.read st)

theorem ordered_empty (st : Store) : Ordered .empty st :=
  ⟨within_empty st, by simp [empty], .nil⟩

theorem Ordered.of_le (h : b.Ordered st) (hle : st ≤ st') : b.Ordered st' where
  within := h.within.of_le hle
  bare p hp := by rw [bare_of_le hle (h.within p hp).2, h.bare p hp]
  triangular := by
    rw [read_of_le h.within hle]
    exact h.triangular

theorem Ordered.of_andThen (h : (outer.andThen found).Ordered st) : outer.Ordered st where
  within p hp := h.within p (List.mem_append_right _ hp)
  bare p hp := h.bare p (List.mem_append_right _ hp)
  triangular := by
    have htri := h.triangular
    rw [read_andThen] at htri
    exact htri.of_append

/-- No bound variable occurs in a type of the store. -/
def Spares (b : Bindings) (st : Store) (ty : TypeId) : Prop :=
  ty < st.size ∧ ∀ x ∈ (b.read st).map Prod.fst, ¬ (st.tree ty).Occurs x

theorem spares_empty (h : ty < st.size) : empty.Spares st ty := ⟨h, by simp⟩

theorem Spares.of_le (h : b.Spares st ty) (hb : b.Within st) (hle : st ≤ st') :
    b.Spares st' ty := by
  refine ⟨lt_size_of_le hle h.1, ?_⟩
  rw [read_of_le hb hle, tree_of_le hle h.1]
  exact h.2

theorem Spares.apply_eq_self (h : b.Spares st ty) : b.apply ty st = (ty, st) :=
  Bindings.apply_eq_self fun _ hp _ hx => h.2 _ (List.mem_map_of_mem (mem_read hp hx))

/-- Bindings of variables that do not occur in a type can be left out in front of others. -/
theorem Spares.andThen_apply (h : outer.Spares st ty) :
    (outer.andThen found).apply ty st = found.apply ty st := by
  have hself := h.apply_eq_self
  unfold apply at hself ⊢
  change (ite (st.isGeneric ty = true) _ _ : StoreM TypeId) st = _ at hself
  change (ite (st.isGeneric ty = true) _ _ : StoreM TypeId) st =
    (ite (st.isGeneric ty = true) _ _ : StoreM TypeId) st
  by_cases hg : st.isGeneric ty = true
  · rw [if_pos hg] at hself
    rw [if_pos hg, if_pos hg, andThen, List.reverse_append, List.foldlM_append, StateM.bind_apply,
      hself]
  · rw [if_neg hg, if_neg hg]

/-- Reading a type through triangular bindings leaves none of their variables in it. -/
theorem Ordered.spares_apply (h : b.Ordered st) (hty : ty < st.size) :
    b.Spares (b.apply ty st).2 (b.apply ty st).1 := by
  obtain ⟨hs, hlt, hread⟩ := yields_apply h.within hty
  refine ⟨hlt, fun x hx => ?_⟩
  rw [read_of_le h.within hs.le] at hx
  rw [hread]
  exact h.triangular.not_occurs hx _

/-- What two types give way to has none of the variables that they have not. -/
theorem Spares.of_split {x y : TypeId} {ps : List (TypeId × TypeId)} (hx : b.Spares st x)
    (hy : b.Spares st y) (hps : ∀ p ∈ ps, p.1 < st.size ∧ p.2 < st.size)
    (h : move (st.tree x) (st.tree y) = .ok (.split (ps.map (Prod.map st.tree st.tree)))) :
    ∀ p ∈ ps, b.Spares st p.1 ∧ b.Spares st p.2 := by
  intro p hp
  have hchild {t c : TypeTree} (hc : c ∈ t.shape.children) {z : VarIdent} (ho : c.Occurs z) :
      t.Occurs z := by
    rw [← mk_shape t]
    exact occurs_mk.mpr (.inr ⟨c, hc, ho⟩)
  rcases move_split h with ⟨hnil, -⟩ | ⟨-, hcompared⟩
  · rw [List.map_eq_nil_iff.mp hnil] at hp
    cases hp
  · have hmem : Prod.map st.tree st.tree p ∈
        (st.tree x).shape.compared (st.tree y).shape := by
      rw [← hcompared]
      exact List.mem_map_of_mem hp
    obtain ⟨h₁, h₂⟩ := Shape.mem_children_of_mem_compared hmem
    exact ⟨⟨(hps p hp).1, fun z hz ho => hx.2 z hz (hchild h₁ ho)⟩,
      ⟨(hps p hp).2, fun z hz ho => hy.2 z hz (hchild h₂ ho)⟩⟩

end Bindings

/-! ## One list and its levels -/

namespace StoreM

open Store TypeTree Bindings

variable {st : Store} {limit budget : Nat} {pairs rest : List (TypeId × TypeId)}
  {total outer found s : Bindings} {x y : TypeId}

theorem settle_nil (limit budget : Nat) (found : Bindings) :
    settle limit budget [] found = pure (.ok found) := by
  cases budget <;> rfl

/-- A run from one list leaves triangular bindings. -/
theorem settle_ordered (hpairs : ∀ p ∈ pairs, p.1 < st.size ∧ p.2 < st.size)
    (hfound : found.Ordered st) (h : (settle limit budget pairs found st).1 = .ok s) :
    s.Ordered (settle limit budget pairs found st).2 := by
  have hreads : Reads _ (settle limit budget pairs found st).1 _ :=
    (yields_settle limit hpairs hfound.within hfound.bare).result
  rw [h] at hreads
  obtain ⟨hwithin, hbare, hread⟩ := hreads
  obtain ⟨-, -, htri, -⟩ := unifyPairs_sound hfound.triangular hread
  exact ⟨hwithin, hbare, htri⟩

/-- A pair is read through the bindings found so far before it is looked at.  It can wait in the
list as it is or as it reads, which leaves no bound variable in it. -/
theorem settle_cons_apply (limit budget : Nat) (rest : List (TypeId × TypeId)) (hx : x < st.size)
    (hy : y < st.size) (htotal : total.Ordered st) :
    let l := total.apply x st
    let r := total.apply y l.2
    (st ≤ r.2 ∧ total.Spares r.2 l.1 ∧ total.Spares r.2 r.1) ∧
      settle limit budget ((x, y) :: rest) total st =
        settle limit budget ((l.1, r.1) :: rest) total r.2 := by
  intro l r
  have hl : st ≤ l.2 := (yields_apply htotal.within hx).steps.le
  have hy : y < l.2.size := lt_size_of_le hl hy
  have hr : l.2 ≤ r.2 := (yields_apply (htotal.within.of_le hl) hy).steps.le
  have hleft : total.Spares r.2 l.1 := (htotal.spares_apply hx).of_le (htotal.within.of_le hl) hr
  have hright : total.Spares r.2 r.1 := (htotal.of_le hl).spares_apply hy
  refine ⟨⟨le_trans hl hr, hleft, hright⟩, ?_⟩
  cases budget <;>
    simp only [settle, StateM.bind_apply, hleft.apply_eq_self, hright.apply_eq_self] <;> rfl

/-- What becomes of a list when its first pairs have been made equal on their own, by bindings that
come after `outer`. -/
def resume (limit : Nat) (outer : Bindings) (rest : List (TypeId × TypeId)) {budget : Nat}
    (run : UnifyRun budget) : StoreM (Except UnifyFailure Bindings) :=
  match run.result with
  | .ok more => settle limit run.left rest (outer.andThen more)
  | .error failure => return .error ⟨failure.error, outer.andThen failure.found⟩

/-- A pair that was read through the bindings before it can be made equal on its own. -/
def PairSettles (limit budget : Nat) : Prop :=
  ∀ (st : Store) (total : Bindings) (x y : TypeId) (rest : List (TypeId × TypeId)),
    total.Ordered st → total.Spares st x → total.Spares st y →
    settle limit budget ((x, y) :: rest) total st =
      (unifyOne limit budget x y >>= resume limit total rest) st

/-- What one pair adds to triangular bindings keeps them triangular. -/
theorem PairSettles.ordered {more : Bindings} (h : PairSettles limit budget)
    (htotal : total.Ordered st) (hx : total.Spares st x) (hy : total.Spares st y)
    (hok : (unifyOne limit budget x y st).1.result = .ok more) :
    st ≤ (unifyOne limit budget x y st).2 ∧
      (total.andThen more).Ordered (unifyOne limit budget x y st).2 := by
  have hpairs : ∀ p ∈ [(x, y)], p.1 < st.size ∧ p.2 < st.size := by simp [hx.1, hy.1]
  have hrun : settle limit budget [(x, y)] total st =
      (.ok (total.andThen more), (unifyOne limit budget x y st).2) := by
    rw [h st total x y [] htotal hx hy, StateM.bind_apply, resume, hok]
    show settle _ _ [] _ _ = _
    rw [settle_nil]
    rfl
  have hordered := settle_ordered hpairs htotal (congrArg Prod.fst hrun)
  have hsteps : Steps st (settle limit budget [(x, y)] total st).2 :=
    (yields_settle limit hpairs htotal.within htotal.bare).steps
  rw [hrun] at hordered hsteps
  exact ⟨hsteps.le, hordered⟩

/-- If single pairs can be made equal on their own, so can lists of them: what the levels above have
found is left out, and put in front again at the end. -/
theorem unifyAll_settles_of (rest : List (TypeId × TypeId))
    (hpair : ∀ budget' ≤ budget, PairSettles limit budget')
    (htotal : (outer.andThen found).Ordered st)
    (hpairs : ∀ p ∈ pairs, outer.Spares st p.1 ∧ outer.Spares st p.2) :
    settle limit budget (pairs ++ rest) (outer.andThen found) st =
      (unifyAll limit budget pairs found >>= resume limit outer rest) st := by
  induction pairs generalizing budget found st with
  | nil =>
    rw [unifyAll]
    rfl
  | cons p pairs ih =>
    obtain ⟨x, y⟩ := p
    obtain ⟨hx, hy⟩ := hpairs (x, y) List.mem_cons_self
    have houter := htotal.of_andThen.within
    -- reading through the bindings of this level is reading through all of them
    have hl : (outer.andThen found).apply x st = found.apply x st := hx.andThen_apply
    have hle : st ≤ (found.apply x st).2 := hl ▸ (yields_apply htotal.within hx.1).steps.le
    have hr : (outer.andThen found).apply y (found.apply x st).2 =
        found.apply y (found.apply x st).2 := (hy.of_le houter hle).andThen_apply
    have hread := settle_cons_apply limit budget (pairs ++ rest) hx.1 hy.1 htotal
    simp only [hl, hr] at hread
    obtain ⟨⟨hle, hleft, hright⟩, hread⟩ := hread
    have htotal := htotal.of_le hle
    have hone := hpair budget le_rfl
    rw [List.cons_append, hread, hone _ _ _ _ _ htotal hleft hright, unifyAll]
    simp only [StateM.bind_apply]
    generalize hrun : unifyOne limit budget (found.apply x st).1
      (found.apply y (found.apply x st).2).1 (found.apply y (found.apply x st).2).2 = run
    cases hresult : run.1.result with
    | error failure =>
      -- the levels above, this one and the pair put their bindings together from either side
      rw [resume, hresult]
      show (Except.error (UnifyFailure.mk failure.error ((outer.andThen found).andThen
        failure.found)), run.2) = _
      rw [andThen_assoc]
      rfl
    | ok more =>
      -- the pairs that are left are read through the bindings of the pair as well
      obtain ⟨hle₁, hordered⟩ := hone.ordered htotal hleft hright (by rw [hrun, hresult])
      rw [hrun] at hle₁ hordered
      have hpairs : ∀ p ∈ pairs, outer.Spares run.2 p.1 ∧ outer.Spares run.2 p.2 := fun p hp =>
        ⟨(hpairs p (List.mem_cons_of_mem _ hp)).1.of_le houter (le_trans hle hle₁),
          (hpairs p (List.mem_cons_of_mem _ hp)).2.of_le houter (le_trans hle hle₁)⟩
      rw [andThen_assoc] at hordered
      have hrest := ih (fun b hb => hpair b (le_trans hb run.1.left_le)) hordered hpairs
      rw [resume, hresult]
      show settle limit run.1.left (pairs ++ rest) ((outer.andThen found).andThen more) run.2 = _
      rw [andThen_assoc, hrest]
      rfl

/-- A pair that was read through the bindings before it can be made equal on its own, whatever its
constituents take. -/
theorem pairSettles (limit budget : Nat) : PairSettles limit budget := by
  induction budget using Nat.strongRecOn with
  | ind budget ih =>
    intro st total x y rest htotal hx hy
    cases budget with
    | zero =>
      rw [unifyOne, settle, StateM.bind_apply, hx.apply_eq_self, StateM.bind_apply,
        hy.apply_eq_self]
      rfl
    | succ budget =>
      rw [unifyOne, settle, StateM.bind_apply, hx.apply_eq_self, StateM.bind_apply,
        hy.apply_eq_self]
      simp only [StateM.bind_apply, StateM.get_apply]
      rcases unifyStep_spec hx.1 hy.1 with
        ⟨e, hstep, -, -⟩ | ⟨v, r, z, hstep, -, -, -, -⟩ | ⟨ps, hstep, hps, hmove⟩
      · rw [hstep]
        rfl
      · rw [hstep]
        rfl
      · -- the list of constituents starts with nothing found, below all of `total`
        rw [hstep]
        have htotal : (total.andThen .empty).Ordered st := htotal
        exact unifyAll_settles_of rest (fun b hb => ih b (Nat.lt_succ_of_le hb)) htotal
          (Spares.of_split hx hy hps hmove)

/-- A list of pairs that were read through the bindings before them can be made equal on its own. -/
theorem unifyAll_settles (limit budget : Nat) (rest : List (TypeId × TypeId))
    (htotal : (outer.andThen found).Ordered st)
    (hpairs : ∀ p ∈ pairs, outer.Spares st p.1 ∧ outer.Spares st p.2) :
    settle limit budget (pairs ++ rest) (outer.andThen found) st =
      (unifyAll limit budget pairs found >>= resume limit outer rest) st :=
  unifyAll_settles_of rest (fun _ _ => pairSettles limit _) htotal hpairs

/-- Nothing is left to do when no pairs wait and nothing was found before. -/
theorem resume_nil (limit : Nat) (run : UnifyRun budget) :
    resume limit .empty [] run = pure run.result := by
  rw [resume]
  cases run.result with
  | ok more => exact (settle_nil _ _ _).trans (by rw [empty_andThen])
  | error failure => simp only [empty_andThen]

/-- Making pairs of types equal level by level is making them equal from one list. -/
theorem unifyPairs_eq_settle (limit budget : Nat)
    (hpairs : ∀ p ∈ pairs, p.1 < st.size ∧ p.2 < st.size) :
    unifyPairs limit budget pairs .empty st = settle limit budget pairs .empty st := by
  have hnone : (empty.andThen empty).Ordered st := ordered_empty st
  have h := unifyAll_settles limit budget [] hnone fun p hp =>
    ⟨spares_empty (hpairs p hp).1, spares_empty (hpairs p hp).2⟩
  rw [List.append_nil, StateM.bind_apply, resume_nil] at h
  exact h.symm

/-- Unification level by level is unification from one list. -/
theorem unify_eq_settle (limit : Nat) (hx : x < st.size) (hy : y < st.size) :
    unify limit x y st = settle limit limit [(x, y)] .empty st := by
  have h := pairSettles limit limit st .empty x y [] (ordered_empty st) (spares_empty hx)
    (spares_empty hy)
  rw [StateM.bind_apply, resume_nil] at h
  exact h.symm

/-! ## Unification read as trees -/

/-- Unification of two types of a store is unification of their trees. -/
theorem yields_unify (limit : Nat) {a b : TypeId} (ha : a < st.size) (hb : b < st.size) :
    (unify limit a b).Yields st fun res st' =>
      Reads st' res (TypeTree.unifyPairs limit limit [(st.tree a, st.tree b)] []) := by
  unfold Yields
  rw [unify_eq_settle limit ha hb]
  exact yields_settle limit (by simp [ha, hb]) (Bindings.within_empty st)
    (by simp [Bindings.empty])

/-- Unification succeeds in a store when it does on the trees. -/
theorem exists_unify_ok {limit : Nat} {a b : TypeId} {bs : Bound} (ha : a < st.size)
    (hb : b < st.size)
    (h : TypeTree.unifyPairs limit limit [(st.tree a, st.tree b)] [] = .ok bs) :
    ∃ s, (unify limit a b st).1 = .ok s :=
  (yields_unify limit ha hb).result.exists_ok_iff.mpr ⟨bs, h⟩

/-- Unification fails in a store when it does on the trees, and for the same reason. -/
theorem exists_unify_error {limit : Nat} {a b : TypeId} {clash : Clash} {bs : Bound}
    (ha : a < st.size) (hb : b < st.size)
    (h : TypeTree.unifyPairs limit limit [(st.tree a, st.tree b)] [] = .error (clash, bs)) :
    ∃ f, (unify limit a b st).1 = .error f ∧ f.error.read (unify limit a b st).2 = clash := by
  have hreads := (yields_unify limit ha hb).result
  rw [h] at hreads
  cases hrun : (unify limit a b st).1 with
  | ok s =>
    rw [hrun] at hreads
    cases hreads.2.2
  | error f =>
    rw [hrun] at hreads
    exact ⟨f, rfl, (Prod.mk.inj (Except.error.inj hreads.2)).1.symm⟩

end StoreM

end ConstraintTyping
