import ConstraintTyping.Proofs.Solve.UnifySound
import Mathlib.Data.Finset.Card

/-!
# The budget of unification

The number of steps is limited, but the limit only cuts runs short.  Every run would come to its own
end: a binding takes a variable out of the pairs that wait, though it may make them larger, and
every other step makes them smaller while it brings in no variable.  A run that did come to its end
does not look at what is left of its budget, so it is the same run under every larger one.
-/

namespace ConstraintTyping

namespace Shape

variable {α : Type}

theorem sum_zip_le (f : α → Nat) (xs ys : List α) :
    ((xs.zip ys).map fun p => f p.1 + f p.2).sum ≤ (xs.map f).sum + (ys.map f).sum := by
  induction xs generalizing ys with
  | nil => simp
  | cons x xs ih =>
    cases ys with
    | nil => simp
    | cons y ys =>
      have := ih ys
      simp only [List.zip_cons_cons, List.map_cons, List.sum_cons]
      omega

/-- What is compared in two shapes is no larger than their constituents together. -/
theorem sum_compared_le (f : α → Nat) (s t : Shape α) :
    ((s.compared t).map fun p => f p.1 + f p.2).sum ≤
      (s.children.map f).sum + (t.children.map f).sum := by
  cases s <;> cases t <;> try exact sum_zip_le f _ _
  case function.function g k =>
    have := sum_zip_le f g.params k.params
    simp only [compared, children, Signature.children, List.map_append, List.map_cons,
      List.map_nil, List.sum_append, List.sum_cons, List.sum_nil, List.cons_append] at this ⊢
    omega

end Shape

namespace TypeTree

/-- The variables of a tree from left to right, each as often as it occurs. -/
def vars : TypeTree → List VarIdent := fold fun s => s.varIdent?.toList ++ s.children.flatten

theorem vars_mk (s : Shape TypeTree) :
    (mk s).vars = s.varIdent?.toList ++ s.children.flatMap vars := by
  rw [vars, fold_mk, Shape.varIdent?_map, Shape.children_map, ← List.flatMap_def]

theorem mem_vars {x : VarIdent} {t : TypeTree} : x ∈ t.vars ↔ Occurs x t := by
  induction t using induction with
  | step s ih =>
    rw [vars_mk, occurs_mk, List.mem_append, Option.mem_toList, List.mem_flatMap]
    exact or_congr_right (exists_congr fun c => and_congr_right (ih c))

variable {a b : TypeTree} {x : VarIdent} {r : TypeTree} {pairs ps rest : List (TypeTree × TypeTree)}
  {found : Bound} {V : Finset VarIdent}

/-! ## The measure -/

/-- The number of layers in pairs that wait, read through the bindings found so far. -/
def weight (found : Bound) (pairs : List (TypeTree × TypeTree)) : Nat :=
  (pairs.map fun p => (applyAll found p.1).size + (applyAll found p.2).size).sum

/-- All variables of pairs that wait, read through the bindings found so far, are among given
ones. -/
def Among (V : Finset VarIdent) (found : Bound) (pairs : List (TypeTree × TypeTree)) : Prop :=
  ∀ p ∈ pairs, ∀ x, Occurs x (applyAll found p.1) ∨ Occurs x (applyAll found p.2) → x ∈ V

theorem size_eq (t : TypeTree) : t.size = 1 + (t.shape.children.map size).sum := by
  rw [← size_mk, mk_shape]

/-- Taking a pair apart leaves less to do. -/
theorem weight_split_lt (hfound : Triangular found)
    (hm : move (applyAll found a) (applyAll found b) = .ok (.split ps)) :
    weight found (ps ++ rest) < weight found ((a, b) :: rest) := by
  have hps : weight found ps < (applyAll found a).size + (applyAll found b).size := by
    rw [size_eq, size_eq (applyAll found b)]
    rcases move_split hm with ⟨rfl, -⟩ | ⟨-, rfl⟩
    · simp only [weight, List.map_nil, List.sum_nil]
      omega
    · -- the constituents were read through the bindings with the pair
      have hread : weight found ((applyAll found a).shape.compared (applyAll found b).shape) =
          (((applyAll found a).shape.compared (applyAll found b).shape).map fun p =>
            p.1.size + p.2.size).sum := by
        refine congrArg List.sum (List.map_congr_left fun p hp => ?_)
        obtain ⟨h₁, h₂⟩ := hfound.applyAll_split hm hp
        rw [h₁, h₂]
      have := Shape.sum_compared_le size (applyAll found a).shape (applyAll found b).shape
      omega
  simp only [weight, List.map_append, List.sum_append, List.map_cons, List.sum_cons] at hps ⊢
  omega

theorem Among.split (hfound : Triangular found) (h : Among V found ((a, b) :: rest))
    (hm : move (applyAll found a) (applyAll found b) = .ok (.split ps)) :
    Among V found (ps ++ rest) := by
  obtain ⟨hab, hrest⟩ := List.forall_mem_cons.mp h
  refine List.forall_mem_append.mpr ⟨fun p hp x hx => hab x ?_, hrest⟩
  obtain ⟨hself₁, hself₂⟩ := hfound.applyAll_split hm hp
  rw [hself₁, hself₂] at hx
  rcases move_split hm with ⟨rfl, -⟩ | ⟨-, rfl⟩
  · cases hp
  · obtain ⟨h₁, h₂⟩ := Shape.mem_children_of_mem_compared hp
    rw [← mk_shape (applyAll found a), ← mk_shape (applyAll found b)]
    exact hx.imp (fun hx => occurs_mk.mpr (.inr ⟨_, h₁, hx⟩))
      fun hx => occurs_mk.mpr (.inr ⟨_, h₂, hx⟩)

/-- A variable that is bound is gone from the pairs that wait. -/
theorem Among.bind (h : Among V found ((a, b) :: rest))
    (hm : move (applyAll found a) (applyAll found b) = .ok (.bind x r)) :
    x ∈ V ∧ Among (V.erase x) ((x, r) :: found) rest := by
  obtain ⟨hxr, hside⟩ := move_bind hm
  obtain ⟨hab, hrest⟩ := List.forall_mem_cons.mp h
  have hx : x ∈ V ∧ ∀ y, Occurs y r → y ∈ V := by
    rcases hside with ⟨h₁, h₂⟩ | ⟨h₁, h₂⟩ <;> rw [h₁, h₂] at hab
    · exact ⟨hab x (.inl (occurs_var.mpr rfl)), fun y hy => hab y (.inr hy)⟩
    · exact ⟨hab x (.inr (occurs_var.mpr rfl)), fun y hy => hab y (.inl hy)⟩
  refine ⟨hx.1, fun p hp y hy => ?_⟩
  have hside : ∀ t, (Occurs y (applyAll found t) → y ∈ V) →
      Occurs y (applyAll ((x, r) :: found) t) → y ∈ V.erase x := by
    intro t ht hy
    rw [Finset.mem_erase]
    rcases occurs_replace hy with ⟨hy, hne⟩ | ⟨-, hy⟩
    · exact ⟨hne, ht hy⟩
    · exact ⟨fun heq => hxr (heq ▸ hy), hx.2 y hy⟩
  exact hy.elim (hside p.1 fun hy => hrest p hp y (.inl hy))
    (hside p.2 fun hy => hrest p hp y (.inr hy))

/-! ## Runs end -/

/-- The budget was used up before the run came to its own end. -/
def OutOfSteps (result : Except (Clash × Bound) Bound) : Prop :=
  ∃ limit found, result = .error (.stepLimit limit, found)

/-- With enough steps every run comes to its own end.  A binding takes one variable out of the pairs
that wait, though it may make them larger; everything else makes them smaller. -/
theorem exists_budget (hfound : Triangular found) (hV : Among V found pairs) :
    ∃ N, ∀ limit, ∀ budget ≥ N, ¬ OutOfSteps (unifyPairs limit budget pairs found) := by
  induction V using Finset.strongInduction generalizing pairs found with
  | H V ihV =>
    induction hw : weight found pairs using Nat.strongRecOn generalizing pairs with
    | ind w ihw =>
      cases pairs with
      | nil =>
        refine ⟨0, ?_⟩
        rintro limit budget - ⟨n, s, h⟩
        cases budget <;> cases h
      | cons p rest =>
        obtain ⟨a, b⟩ := p
        -- one step more than the rest of the run takes
        have hstep : ∀ N, (∀ limit, ∀ budget ≥ N,
            ¬ OutOfSteps (unifyPairs limit (budget + 1) ((a, b) :: rest) found)) →
            ∃ N, ∀ limit, ∀ budget ≥ N,
              ¬ OutOfSteps (unifyPairs limit budget ((a, b) :: rest) found) := by
          intro N hN
          refine ⟨N + 1, fun limit budget hbudget => ?_⟩
          obtain ⟨budget, rfl⟩ := Nat.exists_eq_add_of_le' hbudget
          exact hN limit (budget + N) (Nat.le_add_left N budget)
        cases hm : move (applyAll found a) (applyAll found b) with
        | error clash =>
          refine hstep 0 ?_
          rintro limit budget - ⟨n, s, h⟩
          rw [unifyPairs, hm] at h
          obtain ⟨rfl, -⟩ := Prod.mk.inj (Except.error.inj h)
          rcases (move_error hm).2 with hc | ⟨_, _, hc, -⟩ | ⟨_, _, _, hc, -⟩ <;> cases hc
        | ok m =>
          cases m with
          | bind x r =>
            obtain ⟨hx, hV'⟩ := hV.bind hm
            obtain ⟨N, hN⟩ := ihV _ (Finset.erase_ssubset hx) (hfound.bind hm) hV'
            refine hstep N fun limit budget hbudget => ?_
            rw [unifyPairs, hm]
            exact hN limit budget hbudget
          | split ps =>
            obtain ⟨N, hN⟩ := ihw _ (hw ▸ weight_split_lt hfound hm) (hV.split hfound hm) rfl
            refine hstep N fun limit budget hbudget => ?_
            rw [unifyPairs, hm]
            exact hN limit budget hbudget

end TypeTree

/-! ## In a store -/

namespace StoreM

open Store TypeTree

variable {st : Store} {limit limit' budget budget' : Nat} {pairs : List (TypeId × TypeId)}
  {found : Bindings} {a b : TypeId}

/-- The failure that a run ends in when its budget is used up. -/
def OutOfSteps (result : Except UnifyFailure Bindings) : Prop :=
  ∃ limit found, result = .error ⟨.stepLimit limit, found⟩

theorem Reads.outOfSteps {result : Except UnifyFailure Bindings}
    {read : Except (Clash × Bound) Bound} (h : Reads st result read) (hout : OutOfSteps result) :
    TypeTree.OutOfSteps read := by
  obtain ⟨limit, found, rfl⟩ := hout
  exact ⟨limit, _, h.2⟩

/-- A run that did not use up its budget is the same run under a larger one. -/
theorem settle_of_le (hle : budget ≤ budget')
    (h : ¬ OutOfSteps (settle limit budget pairs found st).1) :
    settle limit' budget' pairs found st = settle limit budget pairs found st := by
  induction budget generalizing budget' pairs found st with
  | zero =>
    match pairs with
    | [] => cases budget' <;> rfl
    | (x, y) :: rest => exact absurd ⟨limit, found, rfl⟩ h
  | succ budget ih =>
    obtain ⟨budget', rfl⟩ := Nat.exists_eq_add_of_lt hle
    match pairs with
    | [] => rfl
    | (x, y) :: rest =>
      rw [settle] at h
      rw [settle, settle]
      simp only [StateM.bind_apply, StateM.get_apply] at h ⊢
      generalize found.apply x st = l at h ⊢
      generalize found.apply y l.2 = r at h ⊢
      -- the step does not depend on the budget, and the rest of the run did not use it up either
      cases hstep : r.2.unifyStep l.1 r.1 with
      | error e => rfl
      | ok next =>
        rw [hstep] at h
        cases next with
        | bind v t => exact ih (by omega) h
        | split ps => exact ih (by omega) h

/-- The budget only cuts runs short: for any two types some budget and all larger ones are enough,
and a run that was not cut short gives the same result and the same store under every larger
budget. -/
theorem unify_budget (st : Store) (a b : TypeId) (ha : a < st.size) (hb : b < st.size) :
    (∃ N, ∀ limit ≥ N, ¬ OutOfSteps (unify limit a b st).1) ∧
      ∀ n, ¬ OutOfSteps (unify n a b st).1 → ∀ m ≥ n, unify m a b st = unify n a b st := by
  have hsame : ∀ n, ¬ OutOfSteps (unify n a b st).1 → ∀ m ≥ n,
      unify m a b st = unify n a b st := by
    intro n hn m hm
    rw [unify_eq_settle n ha hb] at hn ⊢
    rw [unify_eq_settle m ha hb]
    exact settle_of_le hm hn
  refine ⟨?_, hsame⟩
  have hV : Among ((st.tree a).vars ++ (st.tree b).vars).toFinset []
      [(st.tree a, st.tree b)] := by
    simp [Among, mem_vars]
  obtain ⟨N, hN⟩ := exists_budget .nil hV
  exact ⟨N, fun limit hlimit hout =>
    hN limit limit hlimit ((yields_unify limit ha hb).result.outOfSteps hout)⟩

/-- Four steps settle the crossed pairs, so any larger number does the same. -/
theorem unify_budget_crossedPairs :
    let (p, st) := crossedPairs .new
    p.1 < st.size ∧ p.2 < st.size ∧ ¬ OutOfSteps (unify 4 p.1 p.2 st).1 ∧
      (∃ N, ∀ limit ≥ N, ¬ OutOfSteps (unify limit p.1 p.2 st).1) ∧
      ∀ m ≥ 4, unify m p.1 p.2 st = unify 4 p.1 p.2 st := by
  obtain ⟨-, ha, hb, -⟩ := yields_crossedPairs .new
  obtain ⟨s, hs⟩ := unify_crossedPairs .new
  have hfour : ¬ OutOfSteps (unify 4 (crossedPairs .new).1.1 (crossedPairs .new).1.2
      (crossedPairs .new).2).1 := by
    rintro ⟨limit, found, h⟩
    rw [hs] at h
    cases h
  obtain ⟨henough, hsame⟩ := unify_budget _ _ _ ha hb
  exact ⟨ha, hb, hfour, henough, hsame 4 hfour⟩

end StoreM

end ConstraintTyping
