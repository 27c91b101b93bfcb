import ConstraintTyping.Check.Generalize
import ConstraintTyping.Proofs.Types.Regular
import ConstraintTyping.Solve.Solution
import ConstraintTyping.Traits.Table

/-!
# Computations that only add types

Most computations on a store build types and leave the declarations alone: rewriting, solving,
generalizing, looking for an implementation.  Whatever numbers they are given, valid or not, the
store that they end in has all types of the one they start from and the same declarations.
-/

namespace ConstraintTyping

namespace StoreM

open Store

variable {α β : Type}

/-- A computation adds types and touches no declaration. -/
def Builds (act : StoreM α) : Prop :=
  ∀ st, st ≤ (act st).2 ∧ (act st).2.nominals = st.nominals

theorem builds_pure (a : α) : Builds (pure a) := fun _ => ⟨le_rfl, rfl⟩

theorem builds_get : Builds get := fun _ => ⟨le_rfl, rfl⟩

theorem Builds.bind {act : StoreM α} {f : α → StoreM β} (hact : act.Builds)
    (hf : ∀ a, (f a).Builds) : (act >>= f).Builds := by
  intro st
  obtain ⟨hle, hnom⟩ := hact st
  obtain ⟨hle', hnom'⟩ := hf (act st).1 (act st).2
  exact ⟨le_trans hle hle', hnom'.trans hnom⟩

theorem builds_ite {p : Prop} [Decidable p] {x y : StoreM α} (hx : x.Builds) (hy : y.Builds) :
    (if p then x else y).Builds := by
  split
  · exact hx
  · exact hy

theorem builds_mapM {f : α → StoreM β} (hf : ∀ a, (f a).Builds) (xs : List α) :
    (xs.mapM f).Builds := by
  induction xs with
  | nil => exact builds_pure []
  | cons x xs ih =>
    rw [List.mapM_cons]
    exact (hf x).bind fun y => ih.bind fun ys => builds_pure (y :: ys)

theorem builds_foldlM {f : β → α → StoreM β} (hf : ∀ b a, (f b a).Builds) (xs : List α) (b : β) :
    (xs.foldlM f b).Builds := by
  induction xs generalizing b with
  | nil => exact builds_pure b
  | cons x xs ih =>
    rw [List.foldlM_cons]
    exact (hf b x).bind ih

/-! ## Types -/

theorem builds_intern (s : Shape TypeId) : (intern s).Builds := fun st => ⟨intern_le s st, rfl⟩

/-- Regular steps that leave the declarations alone only build. -/
theorem Regular.builds {act : StoreM α} (h : act.Regular) : act.Builds := fun st =>
  ⟨(h st).1.le, (h st).2⟩

theorem builds_freshVar : freshVar.Builds := regular_freshVar.builds

theorem builds_tuple (items : List TypeId) : (tuple items).Builds := (regular_tuple items).builds

theorem builds_qualify (q : Qualifier) (base : TypeId) : (qualify q base).Builds :=
  (regular_qualify q base).builds

theorem builds_rebuild (ty : TypeId) (parts : List TypeId) : (rebuild ty parts).Builds :=
  (regular_rebuild ty parts).builds

/-! ## Rewriting -/

theorem builds_mapVars (f : TypeId → TypeId) (ty : TypeId) : (mapVars f ty).Builds :=
  (regular_mapVars f ty).builds

theorem builds_replaceVar (ty var replacement : TypeId) :
    (replaceVar ty var replacement).Builds :=
  builds_mapVars _ _

theorem builds_substituteAll (mapping : List (TypeId × TypeId)) (ty : TypeId) :
    (substituteAll mapping ty).Builds :=
  (regular_substituteAll mapping ty).builds

theorem builds_instantiateFresh (ty : TypeId) : (instantiateFresh ty).Builds :=
  (regular_instantiateFresh ty).builds

theorem builds_letterMapping (vars : List TypeId) : (letterMapping vars).Builds :=
  builds_mapM (fun _ => (builds_intern _).bind fun _ => builds_pure _) _

theorem builds_generalize (ty : TypeId) (obligations : List TypeId) :
    (generalize ty obligations).Builds := by
  unfold generalize
  refine builds_get.bind fun st => ?_
  split
  · exact builds_pure _
  · refine (builds_intern _).bind fun withGivens => builds_get.bind fun st' => ?_
    exact (builds_letterMapping _).bind fun mapping => builds_substituteAll mapping withGivens

/-! ## Solving -/

theorem builds_apply (b : Bindings) (ty : TypeId) : (b.apply ty).Builds := by
  unfold Bindings.apply
  refine builds_get.bind fun st => builds_ite ?_ (builds_pure _)
  exact builds_foldlM (fun _ _ => builds_replaceVar _ _ _) _ _

section Unify

-- a way in which stores may change, and in which applying bindings changes them
variable {R : Store → Store → Prop} (hrefl : ∀ st, R st st)
  (htrans : ∀ {st₁ st₂ st₃}, R st₁ st₂ → R st₂ st₃ → R st₁ st₃)
  (happly : ∀ (b : Bindings) (ty : TypeId) (st : Store), R st (b.apply ty st).2)
include hrefl htrans happly

/-- Lists of pairs change stores as single pairs do under budgets that are not larger. -/
theorem unifyAll_goes_of {limit budget : Nat}
    (hone : ∀ budget' ≤ budget, ∀ x y st, R st (unifyOne limit budget' x y st).2)
    (pairs : List (TypeId × TypeId)) (found : Bindings) (st : Store) :
    R st (unifyAll limit budget pairs found st).2 := by
  induction pairs generalizing budget found st with
  | nil =>
    rw [unifyAll]
    exact hrefl st
  | cons p pairs ih =>
    obtain ⟨x, y⟩ := p
    rw [unifyAll]
    simp only [StateM.bind_apply]
    refine htrans (happly found x st) (htrans (happly found y _) ?_)
    have hrun := hone budget le_rfl (found.apply x st).1 (found.apply y (found.apply x st).2).1
      (found.apply y (found.apply x st).2).2
    generalize unifyOne limit budget _ _ _ = run at hrun ⊢
    refine htrans hrun ?_
    cases run.1.result with
    | error failure => exact hrefl _
    | ok more => exact ih (fun budget' h => hone budget' (le_trans h run.1.left_le)) _ _

/-- Unification changes stores only as applying bindings does. -/
theorem unifyOne_goes (limit budget : Nat) (a b : TypeId) (st : Store) :
    R st (unifyOne limit budget a b st).2 := by
  induction budget using Nat.strongRecOn generalizing a b st with
  | ind budget ih =>
    cases budget with
    | zero =>
      rw [unifyOne]
      exact hrefl st
    | succ budget =>
      rw [unifyOne]
      simp only [StateM.bind_apply, StateM.get_apply]
      rcases st.unifyStep a b with error | (⟨var, ty⟩ | pairs)
      · exact hrefl st
      · exact hrefl st
      · exact unifyAll_goes_of hrefl htrans happly
          (fun budget' h x y st => ih budget' (Nat.lt_succ_of_le h) x y st) pairs .empty st

end Unify

theorem builds_unify (limit : Nat) (a b : TypeId) : (unify limit a b).Builds :=
  @unifyOne_goes (fun st st' => st ≤ st' ∧ st'.nominals = st.nominals) (fun _ => ⟨le_rfl, rfl⟩)
    (fun h h' => ⟨le_trans h.1 h'.1, h'.2.trans h.2⟩) builds_apply limit limit a b

theorem builds_solveOne (limit : Nat) (sol : Solution) (c : Constraint) :
    (solveOne limit sol c).Builds := by
  cases c with
  | implemented obligation span => exact builds_pure _
  | equal lhs rhs span reason =>
    unfold solveOne
    refine (builds_apply _ _).bind fun l => (builds_apply _ _).bind fun r => ?_
    refine (builds_unify _ _ _).bind fun res => ?_
    split
    · exact builds_pure _
    · exact (builds_apply _ _).bind fun _ => (builds_apply _ _).bind fun _ => builds_pure _

theorem builds_solve (limit : Nat) (cs : List Constraint) : (solve limit cs).Builds :=
  builds_foldlM (builds_solveOne limit) cs {}

/-! ## Implementations -/

theorem builds_coveredBy (limit : Nat) (obligation : TypeId) (impls : List ImplEntry) :
    (TraitTable.coveredBy limit obligation impls).Builds := by
  induction impls with
  | nil => exact builds_pure _
  | cons entry rest ih =>
    unfold TraitTable.coveredBy
    refine builds_ite (builds_pure _) (builds_get.bind fun st => builds_ite ?_ ih)
    refine (builds_instantiateFresh _).bind fun candidate => ?_
    refine (builds_unify _ _ _).bind fun res => ?_
    split
    · exact builds_pure _
    · exact ih

theorem builds_isImplemented (t : TraitTable) (obligation : TypeId) :
    (t.isImplemented obligation).Builds := by
  unfold TraitTable.isImplemented
  refine builds_get.bind fun st => ?_
  split
  · exact builds_coveredBy _ _ _
  · exact builds_pure _

end StoreM

end ConstraintTyping
