import ConstraintTyping.Proofs.Solve.UnifySound
import ConstraintTyping.Solve.Solution

/-!
# A whole run of the solver

The solver takes constraints one by one.  Its invariant is that the bindings are triangular: the two
sides of a constraint are read through the bindings before they are unified, so no variable bound so
far occurs in what unification sees, and none can be bound a second time or come back in a type that
a newer binding puts in.  An equality that was solved stays solved, since later bindings only act on
types that are already compatible, and an equality that fails leaves the bindings as they were.
-/

namespace ConstraintTyping

/-- The trait obligation of a constraint that is one. -/
def Constraint.obligation? : Constraint → Option (TypeId × Span)
  | .implemented obligation span => some (obligation, span)
  | .equal .. => none

/-- The place and the reason of an equality. -/
def Constraint.origin? : Constraint → Option (Span × Reason)
  | .implemented .. => none
  | .equal _ _ span reason => some (span, reason)

/-- Whether the types that a constraint makes equal are types of the store. -/
def Constraint.Within (c : Constraint) (st : Store) : Prop :=
  ∀ lhs rhs span reason, c = .equal lhs rhs span reason → lhs < st.size ∧ rhs < st.size

theorem Constraint.Within.of_le {c : Constraint} {st st' : Store} (h : c.Within st)
    (hle : st ≤ st') : c.Within st' := fun l r sp re hc =>
  ⟨Store.lt_size_of_le hle (h l r sp re hc).1, Store.lt_size_of_le hle (h l r sp re hc).2⟩

namespace StoreM

open Store TypeTree

/-- Unification of two types as a constraint sees them, through the bindings known so far. -/
def unifyThrough (limit : Nat) (known : Bindings) (lhs rhs : TypeId) :
    StoreM (Except UnifyFailure Bindings) := do
  let l ← known.apply lhs
  let r ← known.apply rhs
  unify limit l r

/-- Whether a constraint is handed over as a failure when it is taken into a solution: it is an
equality, and its sides do not unify as they stand then. -/
def fails (limit : Nat) (sol : Solution) (st : Store) : Constraint → Bool
  | .implemented .. => false
  | .equal lhs rhs _ _ =>
    match (unifyThrough limit sol.bindings lhs rhs st).1 with
    | .ok _ => false
    | .error _ => true

/-- The constraints of a list that fail, in order, when they are taken into a solution one after the
other. -/
def failing (limit : Nat) (sol : Solution) (st : Store) : List Constraint → List Constraint
  | [] => []
  | c :: cs =>
    let next := solveOne limit sol c st
    if fails limit sol st c then c :: failing limit next.1 next.2 cs
    else failing limit next.1 next.2 cs

variable {st : Store} {limit : Nat} {sol : Solution} {lhs rhs : TypeId}

theorem solveOne_equal (limit : Nat) (sol : Solution) (lhs rhs : TypeId) (span : Span)
    (reason : Reason) :
    solveOne limit sol (.equal lhs rhs span reason) = (do
      match ← unifyThrough limit sol.bindings lhs rhs with
      | .ok found => return { sol with bindings := sol.bindings.andThen found }
      | .error failure =>
        let known := sol.bindings.andThen failure.found
        let lhs ← known.apply lhs
        let rhs ← known.apply rhs
        return { sol with
          failureCount := sol.failureCount + 1
          failures := sol.failures ++ [{ error := failure.error, lhs, rhs, span, reason }] }) := by
  unfold unifyThrough
  rw [bind_assoc]
  exact bind_congr fun l => (bind_assoc _ _ _).symm

theorem solveOne_ok (span : Span) (reason : Reason) {found : Bindings}
    (h : (unifyThrough limit sol.bindings lhs rhs st).1 = .ok found) :
    solveOne limit sol (.equal lhs rhs span reason) st =
      ({ sol with bindings := sol.bindings.andThen found },
        (unifyThrough limit sol.bindings lhs rhs st).2) := by
  rw [solveOne_equal, StateM.bind_apply, h]
  rfl

theorem solveOne_error (span : Span) (reason : Reason) {f : UnifyFailure}
    (h : (unifyThrough limit sol.bindings lhs rhs st).1 = .error f) :
    let known := sol.bindings.andThen f.found
    let l := known.apply lhs (unifyThrough limit sol.bindings lhs rhs st).2
    let r := known.apply rhs l.2
    solveOne limit sol (.equal lhs rhs span reason) st =
      ({ sol with
          failureCount := sol.failureCount + 1
          failures := sol.failures ++
            [{ error := f.error, lhs := l.1, rhs := r.1, span, reason }] }, r.2) := by
  intro known l r
  rw [solveOne_equal, StateM.bind_apply, h]
  simp only [StateM.bind_apply, StateM.pure_apply, known, l, r]

end StoreM

/-- The bindings of a solution are ordered bindings of the store. -/
structure Solution.Ordered (sol : Solution) (st : Store) : Prop where
  within : sol.bindings.Within st
  triangular : TypeTree.Triangular (sol.bindings.read st)

theorem Solution.ordered_empty (st : Store) : Solution.Ordered {} st :=
  ⟨Bindings.within_empty st, .nil⟩

theorem Solution.Ordered.of_le {sol : Solution} {st st' : Store} (h : sol.Ordered st)
    (hle : st ≤ st') : sol.Ordered st' :=
  ⟨h.within.of_le hle, by rw [Bindings.read_of_le h.within hle]; exact h.triangular⟩

/-- What taking the constraints `cs` into a solution leads to, `failed` being those that fail: the
bindings go on from those before, the obligations are passed on, and every failure is handed over and
counted. -/
structure Solution.Takes (cs failed : List Constraint) (sol : Solution) (st : Store)
    (sol' : Solution) (st' : Store) : Prop where
  steps : st.Steps st'
  ordered : sol'.Ordered st'
  bindings : ∃ new, sol'.bindings.read st' = new ++ sol.bindings.read st
  obligations : sol'.obligations = sol.obligations ++ cs.filterMap Constraint.obligation?
  failures : ∃ fs, sol'.failures = sol.failures ++ fs ∧
    List.Forall₂ (fun f c => c.origin? = some (f.span, f.reason)) fs failed
  failureCount : sol'.failureCount = sol.failureCount + failed.length

theorem Solution.Takes.trans {cs₁ cs₂ failed₁ failed₂ : List Constraint}
    {sol₁ sol₂ sol₃ : Solution} {st₁ st₂ st₃ : Store} (h₁ : Takes cs₁ failed₁ sol₁ st₁ sol₂ st₂)
    (h₂ : Takes cs₂ failed₂ sol₂ st₂ sol₃ st₃) :
    Takes (cs₁ ++ cs₂) (failed₁ ++ failed₂) sol₁ st₁ sol₃ st₃ where
  steps := h₁.steps.trans h₂.steps
  ordered := h₂.ordered
  bindings := by
    obtain ⟨new₁, h₁⟩ := h₁.bindings
    obtain ⟨new₂, h₂⟩ := h₂.bindings
    exact ⟨new₂ ++ new₁, by rw [h₂, h₁, List.append_assoc]⟩
  obligations := by rw [h₂.obligations, h₁.obligations, List.filterMap_append, List.append_assoc]
  failures := by
    obtain ⟨fs₁, heq₁, hfs₁⟩ := h₁.failures
    obtain ⟨fs₂, heq₂, hfs₂⟩ := h₂.failures
    exact ⟨fs₁ ++ fs₂, by rw [heq₂, heq₁, List.append_assoc], List.rel_append hfs₁ hfs₂⟩
  failureCount := by
    rw [h₂.failureCount, h₁.failureCount, List.length_append, Nat.add_assoc]

namespace StoreM

open Store TypeTree

variable {st : Store} {limit : Nat} {sol : Solution} {lhs rhs : TypeId} {span : Span}
  {reason : Reason} {c : Constraint} {cs : List Constraint}

theorem yields_unifyThrough (limit : Nat) {known : Bindings} (hk : known.Within st) (hl : lhs < st.size)
    (hr : rhs < st.size) :
    (unifyThrough limit known lhs rhs).Yields st fun res st' =>
      Reads st' res (TypeTree.unifyPairs limit limit
        [(applyAll (known.read st) (st.tree lhs), applyAll (known.read st) (st.tree rhs))] []) := by
  unfold unifyThrough
  refine (Bindings.yields_apply hk hl).bind fun l st₁ hs₁ ⟨hlt, hlread⟩ => ?_
  refine (Bindings.yields_apply (hk.of_le hs₁.le) (lt_size_of_le hs₁.le hr)).bind
    fun r st₂ hs₂ ⟨hrt, hrread⟩ => ?_
  rw [Bindings.read_of_le hk hs₁.le, tree_of_le hs₁.le hr] at hrread
  rw [← hlread, ← hrread, ← tree_of_le hs₂.le hlt]
  exact yields_unify limit (lt_size_of_le hs₂.le hlt) hrt

/-- An equality fails when the trees of its sides do not unify as the bindings let them be seen. -/
theorem fails_equal_iff (hk : sol.bindings.Within st) (hl : lhs < st.size) (hr : rhs < st.size) :
    fails limit sol st (.equal lhs rhs span reason) = true ↔
      ∃ e, TypeTree.unifyPairs limit limit [(applyAll (sol.bindings.read st) (st.tree lhs),
        applyAll (sol.bindings.read st) (st.tree rhs))] [] = .error e := by
  obtain ⟨-, hreads⟩ := yields_unifyThrough limit hk hl hr
  cases hrun : (unifyThrough limit sol.bindings lhs rhs st).1 with
  | ok found =>
    rw [hrun] at hreads
    simp [fails, hrun, hreads.2.2]
  | error f =>
    rw [hrun] at hreads
    simp [fails, hrun, hreads.2]

/-- Bindings found for two trees seen through triangular bindings go on from them. -/
theorem triangular_append_of_unify {old new : Bound} {t u : TypeTree} {budget : Nat}
    (hold : Triangular old)
    (h : TypeTree.unifyPairs limit budget [(applyAll old t, applyAll old u)] [] = .ok new) :
    Triangular (new ++ old) := by
  -- what unification sees has none of the variables bound so far
  have hseen : ∀ t y, Occurs y (applyAll old t) → y ∉ old.map Prod.fst :=
    fun t y hy hmem => hold.not_occurs hmem t hy
  have hfree := unifyPairs_inherited (inherited_occurs (· ∉ old.map Prod.fst))
    (List.forall_mem_singleton.mpr ⟨hseen t, hseen u⟩) (by simp) h
  refine (unify_sound h).1.append hold ?_ ?_
  · intro x hx
    obtain ⟨p, hp, rfl⟩ := List.mem_map.mp hx
    exact (hfree p hp).1 p.1 (by simp)
  · intro p hp y hy hocc
    exact (hfree p hp).2 y hocc hy

/-- An equality that is solved: the bindings go on, and under them the sides are compatible. -/
theorem solveOne_solved (h : sol.Ordered st) (hl : lhs < st.size) (hr : rhs < st.size)
    (hf : fails limit sol st (.equal lhs rhs span reason) = false) :
    let next := solveOne limit sol (.equal lhs rhs span reason) st
    Solution.Takes [.equal lhs rhs span reason] [] sol st next.1 next.2 ∧
      Compatible (applyAll (next.1.bindings.read next.2) (st.tree lhs))
        (applyAll (next.1.bindings.read next.2) (st.tree rhs)) := by
  intro next
  obtain ⟨hs, hreads⟩ := yields_unifyThrough limit h.within hl hr
  cases hrun : (unifyThrough limit sol.bindings lhs rhs st).1 with
  | error f => simp [fails, hrun] at hf
  | ok found =>
    rw [hrun] at hreads
    obtain ⟨hfound, -, hok⟩ := hreads
    have hnext : next = _ := solveOne_ok span reason hrun
    have hread : next.1.bindings.read next.2 =
        found.read (unifyThrough limit sol.bindings lhs rhs st).2 ++ sol.bindings.read st := by
      rw [hnext, Bindings.read_andThen, Bindings.read_of_le h.within hs.le]
    refine ⟨⟨by rw [hnext]; exact hs, ⟨?_, ?_⟩, ⟨_, hread⟩, ?_, ⟨[], ?_, .nil⟩, by rw [hnext]; rfl⟩,
      ?_⟩
    · rw [hnext]
      exact (h.within.of_le hs.le).andThen hfound
    · rw [hread]
      exact triangular_append_of_unify h.triangular hok
    · rw [hnext]
      simp [Constraint.obligation?]
    · rw [hnext, List.append_nil]
    · rw [hread, applyAll_append, applyAll_append]
      exact (unify_sound hok).2

/-- An equality that fails: the bindings stay as they were, and the failure is recorded. -/
theorem solveOne_failed (h : sol.Ordered st) (hl : lhs < st.size) (hr : rhs < st.size)
    (hf : fails limit sol st (.equal lhs rhs span reason) = true) :
    let next := solveOne limit sol (.equal lhs rhs span reason) st
    Solution.Takes [.equal lhs rhs span reason] [.equal lhs rhs span reason] sol st
      next.1 next.2 ∧ next.1.bindings = sol.bindings := by
  intro next
  obtain ⟨hs, hreads⟩ := yields_unifyThrough limit h.within hl hr
  cases hrun : (unifyThrough limit sol.bindings lhs rhs st).1 with
  | ok found => simp [fails, hrun] at hf
  | error f =>
    rw [hrun] at hreads
    have hnext : next = _ := solveOne_error span reason hrun
    have hknown := (h.within.of_le hs.le).andThen hreads.1.1
    obtain ⟨hs', -⟩ := Bindings.apply_both hknown (lt_size_of_le hs.le hl) (lt_size_of_le hs.le hr)
    have hsteps : Steps st next.2 := by
      rw [hnext]
      dsimp only
      exact hs.trans hs'
    have hbindings : next.1.bindings = sol.bindings := by rw [hnext]
    refine ⟨⟨hsteps, ?_, ⟨[], ?_⟩, ?_, ⟨_, by rw [hnext], .cons rfl .nil⟩, by rw [hnext]; rfl⟩,
      hbindings⟩
    · obtain ⟨hw, ht⟩ := h.of_le hsteps.le
      exact ⟨hbindings ▸ hw, hbindings ▸ ht⟩
    · rw [hbindings, Bindings.read_of_le h.within hsteps.le, List.nil_append]
    · rw [hnext]
      simp [Constraint.obligation?]

/-- One constraint. -/
theorem solveOne_takes (limit : Nat) (h : sol.Ordered st) (hc : c.Within st) :
    Solution.Takes [c] (if fails limit sol st c then [c] else []) sol st
      (solveOne limit sol c st).1 (solveOne limit sol c st).2 := by
  cases c with
  | implemented obligation span =>
    exact ⟨.refl, ⟨h.within, h.triangular⟩, ⟨[], rfl⟩, rfl, ⟨[], (List.append_nil _).symm, .nil⟩,
      rfl⟩
  | equal lhs rhs span reason =>
    obtain ⟨hl, hr⟩ := hc lhs rhs span reason rfl
    cases hf : fails limit sol st (.equal lhs rhs span reason) with
    | false => exact (solveOne_solved h hl hr hf).1
    | true => exact (solveOne_failed h hl hr hf).1

/-- A list of constraints. -/
theorem foldlM_takes (limit : Nat) (h : sol.Ordered st) (hcs : ∀ c ∈ cs, c.Within st) :
    Solution.Takes cs (failing limit sol st cs) sol st
      (cs.foldlM (solveOne limit) sol st).1 (cs.foldlM (solveOne limit) sol st).2 := by
  induction cs generalizing sol st with
  | nil => exact ⟨.refl, h, ⟨[], rfl⟩, by simp, ⟨[], by simp, .nil⟩, rfl⟩
  | cons c cs ih =>
    have hstep := solveOne_takes limit h (hcs c List.mem_cons_self)
    have hrest := ih hstep.ordered fun d hd =>
      (hcs d (List.mem_cons_of_mem c hd)).of_le hstep.steps.le
    have hall := hstep.trans hrest
    rw [List.foldlM_cons, failing]
    cases hf : fails limit sol st c with
    | false => simpa [hf] using hall
    | true => simpa [hf] using hall

theorem solve_takes (limit : Nat) (hcs : ∀ c ∈ cs, c.Within st) :
    Solution.Takes cs (failing limit {} st cs) {} st (solve limit cs st).1 (solve limit cs st).2 :=
  foldlM_takes limit (Solution.ordered_empty st) hcs

/-- A run over a list goes through the run over its first part. -/
theorem solve_append (limit : Nat) (pre post : List Constraint) (st : Store) :
    solve limit (pre ++ post) st =
      post.foldlM (solveOne limit) (solve limit pre st).1 (solve limit pre st).2 := by
  rw [solve, List.foldlM_append]
  rfl

/-- An equality that does not fail when its turn comes is compatible under the bindings that the
whole run ends with. -/
theorem solve_compatible {pre post : List Constraint}
    (hcs : ∀ c ∈ pre ++ .equal lhs rhs span reason :: post, c.Within st)
    (hf : fails limit (solve limit pre st).1 (solve limit pre st).2
      (.equal lhs rhs span reason) = false) :
    let last := solve limit (pre ++ .equal lhs rhs span reason :: post) st
    Compatible (applyAll (last.1.bindings.read last.2) (st.tree lhs))
      (applyAll (last.1.bindings.read last.2) (st.tree rhs)) := by
  intro last
  obtain ⟨hpre, hrest⟩ := List.forall_mem_append.mp hcs
  obtain ⟨hc, hpost⟩ := List.forall_mem_cons.mp hrest
  have hbefore := solve_takes limit hpre
  obtain ⟨hl, hr⟩ := hc lhs rhs span reason rfl
  obtain ⟨hstep, hcomp⟩ := solveOne_solved hbefore.ordered (lt_size_of_le hbefore.steps.le hl)
    (lt_size_of_le hbefore.steps.le hr) hf
  have hafter := foldlM_takes limit hstep.ordered fun d hd =>
    ((hpost d hd).of_le hbefore.steps.le).of_le hstep.steps.le
  obtain ⟨new, hnew⟩ := hafter.bindings
  have hlast : last = _ := solve_append limit pre (.equal lhs rhs span reason :: post) st
  rw [List.foldlM_cons, StateM.bind_apply] at hlast
  rw [hlast, hnew, applyAll_append, applyAll_append]
  rw [tree_of_le hbefore.steps.le hl, tree_of_le hbefore.steps.le hr] at hcomp
  exact hcomp.applyAll new

end StoreM

/-! ## What holds at the end -/

namespace Solution.Ordered

open Store TypeTree

variable {st : Store} {sol : Solution} {ty : TypeId}

theorem nodup (h : sol.Ordered st) : (sol.bindings.pairs.map Prod.fst).Nodup :=
  Bindings.nodup_of_read h.within h.triangular.nodup

/-- No bound variable is left in a type to which the bindings were applied. -/
theorem not_occurs_apply (h : sol.Ordered st) (hty : ty < st.size) {v : TypeId} {x : VarIdent}
    (hv : v ∈ sol.bindings.pairs.map Prod.fst) (hx : (sol.bindings.apply ty st).2.shape v = .var x) :
    ¬ ((sol.bindings.apply ty st).2.tree (sol.bindings.apply ty st).1).Occurs x := by
  obtain ⟨hs, -, hread⟩ := Bindings.yields_apply h.within hty
  obtain ⟨⟨v, r⟩, hp, rfl⟩ := List.mem_map.mp hv
  rw [shape_of_le hs.le (lt_size_of_isVar (h.within _ hp).1)] at hx
  rw [hread]
  exact h.triangular.not_occurs (List.mem_map_of_mem (Bindings.mem_read hp hx)) _

theorem occurs_apply (h : sol.Ordered st) (hty : ty < st.size) {v : TypeId}
    (hv : v ∈ sol.bindings.pairs.map Prod.fst) :
    (sol.bindings.apply ty st).2.occurs v (sol.bindings.apply ty st).1 = false := by
  obtain ⟨hs, hlt, -⟩ := Bindings.yields_apply h.within hty
  obtain ⟨p, hp, hpv⟩ := List.mem_map.mp hv
  obtain ⟨x, hx⟩ := Shape.isVar_iff.mp (h.within.of_le hs.le p hp).1
  rw [Bool.eq_false_iff, ne_eq, occurs_iff (hpv ▸ hx) hlt]
  exact h.not_occurs_apply hty hv (hpv ▸ hx)

/-- Applying the bindings a second time gives the same type and adds nothing to the store. -/
theorem apply_apply (h : sol.Ordered st) (hty : ty < st.size) :
    sol.bindings.apply (sol.bindings.apply ty st).1 (sol.bindings.apply ty st).2 =
      sol.bindings.apply ty st :=
  Bindings.apply_eq_self fun _ hp _ hx =>
    h.not_occurs_apply hty (List.mem_map_of_mem hp) hx

end Solution.Ordered

namespace StoreM

open Store TypeTree

variable {st : Store} {limit : Nat} {sol : Solution} {lhs rhs : TypeId}

/-- The law of a whole run, for every list of constraints over the types of a store.  The bindings
bind distinct variables and remove them for good from every type of the store, now and later.  An
equality that does not fail in its turn is compatible in the end.  One that does leaves the bindings
as they were.  One failure is handed over for each equality that fails, in order, and counted, and the
obligations are those of the list. -/
theorem solve_run (st : Store) (limit : Nat) (cs : List Constraint)
    (hcs : ∀ c ∈ cs, c.Within st) :
    let last := solve limit cs st
    let bs := last.1.bindings
    ((bs.pairs.map Prod.fst).Nodup ∧
      ∀ st', Steps last.2 st' → ∀ ty < st'.size,
        (∀ v ∈ bs.pairs.map Prod.fst, (bs.apply ty st').2.occurs v (bs.apply ty st').1 = false) ∧
        bs.apply (bs.apply ty st').1 (bs.apply ty st').2 = bs.apply ty st') ∧
    (∀ pre lhs rhs span reason post, cs = pre ++ .equal lhs rhs span reason :: post →
      let before := solve limit pre st
      let c := .equal lhs rhs span reason
      if fails limit before.1 before.2 c then
        (solveOne limit before.1 c before.2).1.bindings = before.1.bindings
      else
        let l := bs.apply lhs last.2
        let r := bs.apply rhs l.2
        r.2.Compatible l.1 r.1) ∧
    List.Forall₂ (fun f c => c.origin? = some (f.span, f.reason)) last.1.failures
      (failing limit {} st cs) ∧
    last.1.failureCount = last.1.failures.length ∧
    last.1.obligations = cs.filterMap Constraint.obligation? := by
  intro last bs
  have htakes := solve_takes limit hcs
  have hfailures : List.Forall₂ (fun f c => c.origin? = some (f.span, f.reason)) last.1.failures
      (failing limit {} st cs) := by
    obtain ⟨fs, heq, hfs⟩ := htakes.failures
    rw [heq]
    exact hfs
  refine ⟨⟨htakes.ordered.nodup, fun st' hs ty hty => ?_⟩, ?_, hfailures, ?_, htakes.obligations⟩
  · have hordered := htakes.ordered.of_le hs.le
    exact ⟨fun v hv => hordered.occurs_apply hty hv, hordered.apply_apply hty⟩
  · intro pre lhs rhs span reason post heq before c
    have hc := hcs c (by rw [heq]; simp [c])
    obtain ⟨hl, hr⟩ := hc lhs rhs span reason rfl
    have hpre : ∀ d ∈ pre, d.Within st := fun d hd => hcs d (by rw [heq]; simp [hd])
    have hbefore := solve_takes limit hpre
    split_ifs with hf
    · exact (solveOne_failed hbefore.ordered (lt_size_of_le hbefore.steps.le hl)
        (lt_size_of_le hbefore.steps.le hr) hf).2
    · intro l r
      have hle := htakes.steps.le
      obtain ⟨-, ⟨hlt, hlread⟩, hrt, hrread⟩ := Bindings.apply_both htakes.ordered.within
        (lt_size_of_le hle hl) (lt_size_of_le hle hr)
      rw [compatible_iff hlt hrt, hlread, hrread, tree_of_le hle hl, tree_of_le hle hr]
      subst heq
      exact solve_compatible hcs (by simpa using hf)
  · rw [htakes.failureCount, hfailures.length_eq, Nat.zero_add]

/-- An equality of two types, one that fails, and an obligation. -/
def mixedConstraints (a b : TypeId) : List Constraint :=
  [.equal a b ⟨0, 1⟩ .general, .equal TypeId.bool TypeId.unit ⟨2, 3⟩ .condition,
    .implemented a ⟨4, 5⟩]

theorem within_mixedConstraints {st : Store} {a b : TypeId} (ha : a < st.size) (hb : b < st.size) :
    ∀ c ∈ mixedConstraints a b, c.Within st := by
  refine List.forall_mem_cons.mpr ⟨?_, List.forall_mem_cons.mpr ⟨?_, ?_⟩⟩
  · rintro _ _ _ _ ⟨⟩
    exact ⟨ha, hb⟩
  · rintro _ _ _ _ ⟨⟩
    exact ⟨lt_size_of_prim .bool, lt_size_of_prim .unit⟩
  · simp [Constraint.Within]

/-- An equality that is taken in first does not fail when its sides unify as they are. -/
theorem fails_first (span : Span) (reason : Reason) (hl : lhs < st.size) (hr : rhs < st.size)
    {bs : Bound} (h : TypeTree.unifyPairs limit limit [(st.tree lhs, st.tree rhs)] [] = .ok bs) :
    fails limit {} st (.equal lhs rhs span reason) = false := by
  rw [Bool.eq_false_iff, ne_eq, fails_equal_iff (Bindings.within_empty st) hl hr]
  rintro ⟨e, he⟩
  have hread : Bindings.empty.read st = [] := rfl
  rw [hread, applyAll_nil, applyAll_nil, h] at he
  cases he

/-- Two types without variables and with different heads fail whenever their turn comes. -/
theorem fails_boolUnit (span : Span) (reason : Reason) (h : sol.Ordered st) :
    fails (limit + 1) sol st (.equal TypeId.bool TypeId.unit span reason) = true := by
  rw [fails_equal_iff h.within (lt_size_of_prim .bool) (lt_size_of_prim .unit), tree_prim, tree_prim,
    applyAll_prim, applyAll_prim]
  have hmove : move (.prim .bool) (.prim .unit) =
      .error (.mismatch (.prim .bool) (.prim .unit)) := by
    simp [move, splitMove, headClash, Shape.varIdent?, Shape.SameHead, Shape.counts?]
  simp only [TypeTree.unifyPairs, applyAll_nil, hmove, Except.error.injEq, exists_eq']

/-- The equality that is solved is not among those that fail, and the one after it does not undo
it. -/
theorem solve_run_mixedConstraints :
    let p := crossedPairs .new
    let cs := mixedConstraints p.1.1 p.1.2
    let last := solve 4 cs p.2
    let l := last.1.bindings.apply p.1.1 last.2
    let r := last.1.bindings.apply p.1.2 l.2
    (∀ c ∈ cs, c.Within p.2) ∧
      failing 4 {} p.2 cs = [.equal TypeId.bool TypeId.unit ⟨2, 3⟩ .condition] ∧
      r.2.Compatible l.1 r.1 ∧
      (last.1.bindings.pairs.map Prod.fst).Nodup ∧
      last.1.failures.length = 1 ∧ last.1.failureCount = 1 ∧
      last.1.obligations = [(p.1.1, ⟨4, 5⟩)] := by
  intro p cs last l r
  obtain ⟨-, ha, hb, hat, hbt⟩ := yields_crossedPairs .new
  have hcs : ∀ c ∈ cs, c.Within p.2 := within_mixedConstraints ha hb
  have hfirst : fails 4 {} p.2 (.equal p.1.1 p.1.2 ⟨0, 1⟩ .general) = false :=
    fails_first _ _ ha hb (by rw [hat, hbt]; exact unifyPairs_crossed)
  have hnext := (solveOne_takes 4 (Solution.ordered_empty p.2) (hcs _ List.mem_cons_self)).ordered
  have hsecond := @fails_boolUnit _ 3 _ ⟨2, 3⟩ .condition hnext
  have hfailing : failing 4 {} p.2 cs = [.equal TypeId.bool TypeId.unit ⟨2, 3⟩ .condition] := by
    simp only [cs, mixedConstraints, failing, hfirst, hsecond, if_true, Bool.false_eq_true, if_false]
    rfl
  obtain ⟨hlast, heach, hfailures, hcount, hobligations⟩ := solve_run p.2 4 cs hcs
  have hone : last.1.failures.length = 1 := by rw [hfailures.length_eq, hfailing]; rfl
  refine ⟨hcs, hfailing, ?_, hlast.1, hone, hcount.trans hone, hobligations⟩
  have hsolved := heach [] p.1.1 p.1.2 ⟨0, 1⟩ .general _ rfl
  have hbefore : solve 4 [] p.2 = ({}, p.2) := rfl
  dsimp only at hsolved
  rwa [hbefore, if_neg (Bool.eq_false_iff.mp hfirst)] at hsolved

end StoreM

end ConstraintTyping
