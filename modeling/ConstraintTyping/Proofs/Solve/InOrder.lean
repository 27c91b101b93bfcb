import ConstraintTyping.Proofs.Solve.SolveRun

/-!
# Solving in order

A run of the solver without failures, read as trees: equations are solved one after the other, each
seen through the bindings before it.  All of them hold in the end.  More than that, a variable that
no equation has mentioned yet becomes what it is first equated with, whatever comes later.
-/

namespace ConstraintTyping

open TypeTree

/-- The two sides of an equality, read as trees. -/
def Constraint.equation? (T : Store) : Constraint → Option (TypeTree × TypeTree)
  | .equal lhs rhs _ _ => some (T.tree lhs, T.tree rhs)
  | .implemented .. => none

/-- The equations of constraints do not depend on the store that they are read in. -/
theorem Constraint.equations_of_le {st st' : Store} {cs : List Constraint} (hle : st ≤ st')
    (hcs : ∀ c ∈ cs, c.Within st) :
    cs.filterMap (Constraint.equation? st') = cs.filterMap (Constraint.equation? st) := by
  refine List.filterMap_congr fun c hc => ?_
  cases c with
  | implemented _ _ => rfl
  | equal l r span reason =>
    obtain ⟨hl, hr⟩ := hcs _ hc l r span reason rfl
    rw [Constraint.equation?, Constraint.equation?, Store.tree_of_le hle hl, Store.tree_of_le hle hr]

/-- Equations are solved one after the other, going on from bindings to bindings. -/
inductive SolvesInOrder (limit : Nat) : Bound → List (TypeTree × TypeTree) → Bound → Prop
  | nil {bs : Bound} : SolvesInOrder limit bs [] bs
  | cons {bs new last : Bound} {l r : TypeTree} {rest : List (TypeTree × TypeTree)}
      (h : unifyPairs limit limit [(applyAll bs l, applyAll bs r)] [] = .ok new)
      (hrest : SolvesInOrder limit (new ++ bs) rest last) :
      SolvesInOrder limit bs ((l, r) :: rest) last

/-- Neither the variables of bindings nor their replacements mention a variable. -/
def TypeTree.Bound.Avoids (bs : Bound) (x : VarIdent) : Prop :=
  ∀ p ∈ bs, p.1 ≠ x ∧ ¬ p.2.Occurs x

namespace SolvesInOrder

variable {limit : Nat} {bs last new : Bound} {eqs pre post : List (TypeTree × TypeTree)}
  {x : VarIdent} {l r : TypeTree}

/-- Bindings are added and never taken back. -/
theorem exists_append (h : SolvesInOrder limit bs eqs last) : ∃ more, last = more ++ bs := by
  induction h with
  | nil => exact ⟨[], rfl⟩
  | @cons bs new last l r rest _ _ ih =>
    obtain ⟨more, rfl⟩ := ih
    exact ⟨more ++ new, (List.append_assoc ..).symm⟩

theorem triangular (h : SolvesInOrder limit bs eqs last) (hbs : Triangular bs) :
    Triangular last := by
  induction h with
  | nil => exact hbs
  | cons hunify _ ih => exact ih (StoreM.triangular_append_of_unify hbs hunify)

/-- Every equation holds in the end, up to compatibility. -/
theorem compatible (h : SolvesInOrder limit bs eqs last) :
    ∀ p ∈ eqs, Compatible (applyAll last p.1) (applyAll last p.2) := by
  induction h with
  | nil => simp
  | cons hunify hrest ih =>
    refine List.forall_mem_cons.mpr ⟨?_, ih⟩
    obtain ⟨more, rfl⟩ := hrest.exists_append
    rw [applyAll_append, applyAll_append, applyAll_append, applyAll_append]
    exact (unify_sound hunify).2.applyAll more

theorem avoids_applyAll (hbs : bs.Avoids x) (hl : ¬ l.Occurs x) : ¬ (applyAll bs l).Occurs x := by
  have hinherited := inherited_occurs (· ≠ x)
  intro hocc
  refine hinherited.applyAll (fun y hy => ?_) (fun p hp y hy => ?_) x hocc rfl
  · rintro rfl
    exact hl hy
  · rintro rfl
    exact (hbs p hp).2 hy

/-- Bindings found for trees that do not mention a variable do not mention it. -/
theorem avoids_unify (hbs : bs.Avoids x) (hl : ¬ l.Occurs x) (hr : ¬ r.Occurs x)
    (h : unifyPairs limit limit [(applyAll bs l, applyAll bs r)] [] = .ok new) :
    Bound.Avoids (new ++ bs) x := by
  have hne : ∀ {t : TypeTree}, ¬ t.Occurs x → ∀ y, t.Occurs y → y ≠ x := by
    rintro t ht y hy rfl
    exact ht hy
  have hfound := unifyPairs_inherited (inherited_occurs (· ≠ x)) (List.forall_mem_singleton.mpr
    ⟨hne (avoids_applyAll hbs hl), hne (avoids_applyAll hbs hr)⟩) (by simp) h
  intro p hp
  rcases List.mem_append.mp hp with hp | hp
  · exact ⟨(hfound p hp).1 p.1 (by simp), fun hocc => (hfound p hp).2 x hocc rfl⟩
  · exact hbs p hp

/-- A variable against a tree that does not mention it: it is bound, unless the tree is the error
type, which agrees with everything. -/
theorem unify_var (hl : ¬ l.Occurs x) (h : unifyPairs limit limit [(var x, l)] [] = .ok new) :
    new = [(x, l)] ∨ l = error := by
  cases limit with
  | zero => cases h
  | succ limit =>
    rcases move_cases (var x) l with ⟨hsame, -⟩ | ⟨y, hy, -, -, -, hmove⟩ | ⟨y, -, -, -, -, hvar, -⟩ |
      ⟨-, -, -, hvar, -⟩
    · rcases hsame with rfl | herror | rfl
      · exact absurd (occurs_var.mpr rfl) hl
      · cases herror
      · exact .inr rfl
    · cases hy
      rw [bindMove, if_neg hl] at hmove
      rw [unifyPairs, applyAll_nil, applyAll_nil, hmove] at h
      have hdone : unifyPairs (limit + 1) limit [] [(x, l)] = .ok [(x, l)] := by
        cases limit <;> rfl
      exact .inl (Except.ok.inj (h.symm.trans hdone))
    · cases hvar
    · cases hvar

/-- A variable against another tree that does not mention it is bound in one step. -/
theorem unify_var_ok (hlimit : 0 < limit) (hl : ¬ l.Occurs x) (herror : l ≠ error) :
    unifyPairs limit limit [(var x, l)] [] = .ok [(x, l)] := by
  obtain ⟨limit, rfl⟩ := Nat.exists_eq_succ_of_ne_zero hlimit.ne'
  have hne : var x ≠ l := by
    rintro rfl
    exact hl (occurs_var.mpr rfl)
  have hmove : move (var x) l = .ok (.bind x l) := by
    rw [move, if_neg (by simp [hne, herror, error])]
    exact if_neg hl
  rw [unifyPairs, applyAll_nil, applyAll_nil, hmove]
  cases limit <;> rfl

/-- The bindings depend on the equations alone. -/
theorem unique (h : SolvesInOrder limit bs eqs last) {last' : Bound}
    (h' : SolvesInOrder limit bs eqs last') : last = last' := by
  induction h with
  | nil => cases h'; rfl
  | cons hunify _ ih =>
    cases h' with
    | cons hunify' hrest' =>
      obtain rfl := Except.ok.inj (hunify.symm.trans hunify')
      exact ih hrest'

/-- A variable that was not mentioned before becomes what it is first equated with. -/
theorem pinned (h : SolvesInOrder limit bs (pre ++ (var x, l) :: post) last) (hbs : bs.Avoids x)
    (hpre : ∀ p ∈ pre, ¬ p.1.Occurs x ∧ ¬ p.2.Occurs x) (hl : ¬ l.Occurs x) :
    applyAll last (var x) = applyAll last l ∨ applyAll last l = error := by
  induction pre generalizing bs with
  | cons p pre ih =>
    cases h with
    | cons hunify hrest =>
      obtain ⟨hp, hpre⟩ := List.forall_mem_cons.mp hpre
      exact ih hrest (avoids_unify hbs hp.1 hp.2 hunify) hpre
  | nil =>
    cases h with
    | @cons _ new _ _ _ _ hunify hrest =>
      obtain ⟨more, rfl⟩ := hrest.exists_append
      have hfree := avoids_applyAll hbs hl
      have hx : applyAll bs (var x) = var x := applyAll_eq_self fun y hy hocc => by
        obtain ⟨p, hp, rfl⟩ := List.mem_map.mp hy
        exact (hbs p hp).1 (occurs_var.mp hocc).symm
      rw [hx] at hunify
      simp only [applyAll_append, hx]
      rcases unify_var hfree hunify with rfl | herror
      · refine .inl (congrArg (applyAll more) ?_)
        rw [applyAll_cons, applyAll_cons, applyAll_nil, applyAll_nil, replace_var_self,
          replace_eq_self hfree]
      · rw [herror]
        exact .inr (by simp only [error, applyAll_prim])

/-- Equations that hold already add no bindings. -/
theorem of_agree {limit : Nat} (hlimit : limit ≠ 0) {bs : Bound}
    {eqs : List (TypeTree × TypeTree)} (h : ∀ p ∈ eqs, applyAll bs p.1 = applyAll bs p.2) :
    SolvesInOrder limit bs eqs bs := by
  induction eqs with
  | nil => exact .nil
  | cons p eqs ih =>
    obtain ⟨hp, heqs⟩ := List.forall_mem_cons.mp h
    obtain ⟨budget, rfl⟩ := Nat.exists_eq_succ_of_ne_zero hlimit
    refine @SolvesInOrder.cons _ bs [] bs p.1 p.2 eqs ?_ (ih heqs)
    rw [hp]
    simp [TypeTree.unifyPairs, move]

end SolvesInOrder

/-! ## Runs without failures -/

namespace StoreM

open Store

variable {st : Store} {limit : Nat} {sol : Solution} {cs : List Constraint}

/-- Constraints that are taken in without a failure are solved in order. -/
theorem inOrder_foldlM (h : sol.Ordered st) (hcs : ∀ c ∈ cs, c.Within st)
    (hclean : (cs.foldlM (solveOne limit) sol st).1.failures = []) :
    SolvesInOrder limit (sol.bindings.read st) (cs.filterMap (Constraint.equation? st))
      ((cs.foldlM (solveOne limit) sol st).1.bindings.read
        (cs.foldlM (solveOne limit) sol st).2) := by
  induction cs generalizing sol st with
  | nil => exact .nil
  | cons c cs ih =>
    obtain ⟨hc, hcs⟩ := List.forall_mem_cons.mp hcs
    have hstep := solveOne_takes limit h hc
    have hcs' : ∀ d ∈ cs, d.Within (solveOne limit sol c st).2 := fun d hd =>
      (hcs d hd).of_le hstep.steps.le
    rw [List.foldlM_cons, StateM.bind_apply] at hclean ⊢
    have hrest := ih hstep.ordered hcs' hclean
    rw [Constraint.equations_of_le hstep.steps.le hcs] at hrest
    cases c with
    | implemented obligation span => exact hrest
    | equal l r span reason =>
      obtain ⟨hl, hr⟩ := hc l r span reason rfl
      obtain ⟨hsteps, hreads⟩ := yields_unifyThrough limit h.within hl hr
      cases hrun : (unifyThrough limit sol.bindings l r st).1 with
      | ok found =>
        rw [hrun] at hreads
        rw [solveOne_ok span reason hrun] at hrest ⊢
        rw [Bindings.read_andThen, Bindings.read_of_le h.within hsteps.le] at hrest
        exact .cons hreads.2.2 hrest
      | error f =>
        -- a failure stays on record
        obtain ⟨fs, hfs, -⟩ := (foldlM_takes limit hstep.ordered hcs').failures
        rw [hfs, solveOne_error span reason hrun] at hclean
        simp at hclean

theorem inOrder_solve (hcs : ∀ c ∈ cs, c.Within st) (hclean : (solve limit cs st).1.failures = []) :
    SolvesInOrder limit [] (cs.filterMap (Constraint.equation? st))
      ((solve limit cs st).1.bindings.read (solve limit cs st).2) :=
  @inOrder_foldlM st limit {} cs (Solution.ordered_empty st) hcs hclean

/-- Constraints that can be solved in order are taken in without a failure. -/
theorem failures_foldlM (h : sol.Ordered st) (hcs : ∀ c ∈ cs, c.Within st)
    (hclean : sol.failures = []) {last : Bound} (horder : SolvesInOrder limit (sol.bindings.read st)
      (cs.filterMap (Constraint.equation? st)) last) :
    (cs.foldlM (solveOne limit) sol st).1.failures = [] := by
  induction cs generalizing sol st with
  | nil => exact hclean
  | cons c cs ih =>
    obtain ⟨hc, hcs⟩ := List.forall_mem_cons.mp hcs
    have hstep := solveOne_takes limit h hc
    have hcs' : ∀ d ∈ cs, d.Within (solveOne limit sol c st).2 := fun d hd =>
      (hcs d hd).of_le hstep.steps.le
    have hequations := Constraint.equations_of_le hstep.steps.le hcs
    rw [List.foldlM_cons, StateM.bind_apply]
    cases c with
    | implemented obligation span => exact ih hstep.ordered hcs' hclean horder
    | equal l r span reason =>
      obtain ⟨hl, hr⟩ := hc l r span reason rfl
      obtain ⟨hsteps, hreads⟩ := yields_unifyThrough limit h.within hl hr
      cases horder with
      | cons hunify hrest =>
        cases hrun : (unifyThrough limit sol.bindings l r st).1 with
        | ok found =>
          rw [hrun] at hreads
          obtain rfl := Except.ok.inj (hunify.symm.trans hreads.2.2)
          refine ih hstep.ordered hcs' ?_ ?_
          · rw [solveOne_ok span reason hrun]
            exact hclean
          · rw [hequations, solveOne_ok span reason hrun, Bindings.read_andThen,
              Bindings.read_of_le h.within hsteps.le]
            exact hrest
        | error f =>
          rw [hrun] at hreads
          cases hunify.symm.trans hreads.2

theorem failures_solve (hcs : ∀ c ∈ cs, c.Within st) {last : Bound}
    (horder : SolvesInOrder limit [] (cs.filterMap (Constraint.equation? st)) last) :
    (solve limit cs st).1.failures = [] :=
  @failures_foldlM st limit {} cs (Solution.ordered_empty st) hcs rfl last horder

end StoreM

end ConstraintTyping
