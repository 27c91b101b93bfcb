import ConstraintTyping.Proofs.Solve.SolveRun
import ConstraintTyping.Proofs.Solve.UnifyComplete

/-!
# Solving what can be solved

Let a replacement of variables make both sides of every equality equal.  Then a run of the solver
meets no clash: an equality fails only when its steps run out.  The replacement absorbs the bindings
that the run ends with, so it is an instance of them.
-/

namespace ConstraintTyping

namespace StoreM

open Store TypeTree

variable {st : Store} {limit : Nat} {sol : Solution} {c : Constraint} {cs : List Constraint}
  {σ : VarIdent → TypeTree}

/-- A replacement solves a constraint. -/
def SolvedBy (σ : VarIdent → TypeTree) (st : Store) (c : Constraint) : Prop :=
  ∀ l r span reason, c = .equal l r span reason → (st.tree l).subst σ = (st.tree r).subst σ

/-- A replacement absorbs the bindings of a solution, which has met no clash. -/
structure Absorbs (σ : VarIdent → TypeTree) (limit : Nat) (sol : Solution) (st : Store) : Prop where
  bindings : ∀ t, (applyAll (sol.bindings.read st) t).subst σ = t.subst σ
  failures : ∀ f ∈ sol.failures, f.error = .stepLimit limit

theorem SolvedBy.of_le {st' : Store} (h : SolvedBy σ st c) (hc : c.Within st) (hle : st ≤ st') :
    SolvedBy σ st' c := by
  intro l r span reason heq
  obtain ⟨hl, hr⟩ := hc l r span reason heq
  rw [tree_of_le hle hl, tree_of_le hle hr]
  exact h l r span reason heq

theorem absorbs_solveOne (hsol : sol.Ordered st) (hc : c.Within st) (hσ : SolvedBy σ st c)
    (h : Absorbs σ limit sol st) :
    Absorbs σ limit (solveOne limit sol c st).1 (solveOne limit sol c st).2 := by
  cases c with
  | implemented obligation span => exact ⟨h.bindings, h.failures⟩
  | equal l r span reason =>
    obtain ⟨hl, hr⟩ := hc l r span reason rfl
    obtain ⟨hsteps, hreads⟩ := yields_unifyThrough limit hsol.within hl hr
    -- the sides as the solver sees them have the same images as the sides
    have heq : (applyAll (sol.bindings.read st) (st.tree l)).subst σ =
        (applyAll (sol.bindings.read st) (st.tree r)).subst σ := by
      rw [h.bindings, h.bindings]
      exact hσ l r span reason rfl
    have hran : ∀ p ∈ sol.bindings.read st, Unqualified p.2 := by
      intro p hp
      obtain ⟨q, -, hq⟩ := List.mem_filterMap.mp hp
      obtain ⟨x, -, rfl⟩ := Option.map_eq_some_iff.mp hq
      exact unqualified_tree st _
    have hbare : ∀ ty, Unqualified (applyAll (sol.bindings.read st) (st.tree ty)) := fun ty =>
      inherited_unqualified.applyAll (unqualified_tree st ty) hran
    rcases unify_complete limit limit heq (hbare l) (hbare r) with ⟨bs, hrun⟩ | ⟨bs, hrun, habs⟩
    · rw [hrun] at hreads
      cases hres : (unifyThrough limit sol.bindings l r st).1 with
      | ok found =>
        rw [hres] at hreads
        cases hreads.2.2
      | error f =>
        rw [hres] at hreads
        have herror : f.error = .stepLimit limit := by
          have hread := (Prod.mk.inj (Except.error.inj hreads.2)).1
          cases hf : f.error with
          | stepLimit n => rw [hf] at hread; rw [Clash.stepLimit.inj hread]
          | mismatch _ _ => rw [hf] at hread; cases hread
          | infinite _ _ => rw [hf] at hread; cases hread
          | arity _ _ _ => rw [hf] at hread; cases hread
        have hfails : fails limit sol st (.equal l r span reason) = true := by
          simp [fails, hres]
        obtain ⟨htakes, hsame⟩ := solveOne_failed hsol hl hr hfails
        refine ⟨fun t => ?_, ?_⟩
        · rw [hsame, Bindings.read_of_le hsol.within htakes.steps.le]
          exact h.bindings t
        · rw [solveOne_error span reason hres]
          intro g hg
          rcases List.mem_append.mp hg with hg | hg
          · exact h.failures g hg
          · rw [List.mem_singleton.mp hg]
            exact herror
    · rw [hrun] at hreads
      cases hres : (unifyThrough limit sol.bindings l r st).1 with
      | error f =>
        rw [hres] at hreads
        cases hreads.2
      | ok found =>
        rw [hres] at hreads
        have hread := Except.ok.inj hreads.2.2
        rw [solveOne_ok span reason hres]
        refine ⟨fun t => ?_, h.failures⟩
        rw [Bindings.read_andThen, Bindings.read_of_le hsol.within hsteps.le, ← hread,
          applyAll_append, habs]
        exact h.bindings t

theorem absorbs_foldlM (hsol : sol.Ordered st) (hcs : ∀ c ∈ cs, c.Within st)
    (hσ : ∀ c ∈ cs, SolvedBy σ st c) (h : Absorbs σ limit sol st) :
    Absorbs σ limit (cs.foldlM (solveOne limit) sol st).1
      (cs.foldlM (solveOne limit) sol st).2 := by
  induction cs generalizing sol st with
  | nil => exact h
  | cons c cs ih =>
    obtain ⟨hc, hcs⟩ := List.forall_mem_cons.mp hcs
    obtain ⟨hσc, hσ⟩ := List.forall_mem_cons.mp hσ
    have hstep := solveOne_takes limit hsol hc
    rw [List.foldlM_cons, StateM.bind_apply]
    refine ih hstep.ordered (fun d hd => (hcs d hd).of_le hstep.steps.le) (fun d hd => ?_)
      (absorbs_solveOne hsol hc hσc h)
    exact (hσ d hd).of_le (hcs d hd) hstep.steps.le

/-- A run over constraints that a replacement solves meets no clash, and the replacement absorbs its
bindings. -/
theorem absorbs_solve (limit : Nat) (hcs : ∀ c ∈ cs, c.Within st)
    (hσ : ∀ c ∈ cs, SolvedBy σ st c) :
    Absorbs σ limit (solve limit cs st).1 (solve limit cs st).2 :=
  absorbs_foldlM (Solution.ordered_empty st) hcs hσ ⟨fun _ => rfl, by simp⟩

end StoreM

end ConstraintTyping
