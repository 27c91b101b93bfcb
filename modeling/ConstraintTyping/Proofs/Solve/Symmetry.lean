import ConstraintTyping.Proofs.Renaming.Coupled
import ConstraintTyping.Proofs.Solve.UnifySound
import Mathlib.Logic.Equiv.Basic

/-!
# Unification is symmetric

Unifying two types in the other order succeeds within the same budget or fails for the same reason.
The two runs take the same steps on pairs turned around until a variable meets a variable: then each
run binds the one that it finds on the left, and from there on one run speaks of the first variable
where the other one speaks of the second.  So the runs agree up to a permutation of the variables,
which each such step changes by a swap.
-/

namespace ConstraintTyping

namespace Shape

variable {α : Type}

theorem varIdent?_eq_none {s : Shape α} (h : s.isVar = false) : s.varIdent? = none := by
  cases s <;> first | rfl | cases h

theorem counts?_swap (s t : Shape α) :
    t.counts? s = (s.counts? t).map fun c => (c.2.1, c.1, c.2.2) := by
  cases s <;> cases t <;> try rfl
  case function.function f g =>
    by_cases h : f.isMeta = g.isMeta <;> simp [counts?, h, eq_comm]
  case product.product n xs m ys => by_cases h : n = m <;> simp [counts?, h, eq_comm]
  case sum.sum n xs m ys => by_cases h : n = m <;> simp [counts?, h, eq_comm]
  case trait.trait n s xs m t ys => by_cases h : n = m <;> simp [counts?, h, eq_comm]

end Shape

namespace TypeTree

variable {a b : TypeTree} {x y : VarIdent} {r t : TypeTree} {limit budget : Nat}
  {pairs ps pairs' ps' : List (TypeTree × TypeTree)} {found found' : Bound}
  {ρ : Equiv.Perm VarIdent}

theorem rename_replace (ρ : Equiv.Perm VarIdent) (t : TypeTree) (x : VarIdent) (r : TypeTree) :
    (t.replace x r).rename ρ = (t.rename ρ).replace (ρ x) (r.rename ρ) := by
  rw [rename, rename, replace, replace, subst_subst, subst_subst]
  refine subst_congr fun y _ => ?_
  by_cases h : y = x
  · subst h
    rw [subst_var, Function.update_self, Function.update_self]
    rfl
  · rw [subst_var, Function.update_of_ne h, Function.update_of_ne (ρ.injective.ne h), subst_var]

/-- Binding one of two variables to the other one is binding the other one to it, with the two
variables swapped. -/
theorem rename_replace_swap (hxy : x ≠ y) (ρ : Equiv.Perm VarIdent) (t : TypeTree) :
    (t.replace x (var y)).rename ((Equiv.swap x y).trans ρ) = (t.rename ρ).replace (ρ y) (var (ρ x)) := by
  rw [rename, rename, replace, replace, subst_subst, subst_subst]
  refine subst_congr fun z _ => ?_
  by_cases hzx : z = x
  · subst hzx
    rw [Function.update_self, subst_var, subst_var, Function.update_of_ne (ρ.injective.ne hxy),
      Equiv.trans_apply, Equiv.swap_apply_right]
  · rw [Function.update_of_ne hzx, subst_var, subst_var, Equiv.trans_apply]
    by_cases hzy : z = y
    · subst hzy
      rw [Equiv.swap_apply_right, Function.update_self]
    · rw [Equiv.swap_apply_of_ne_of_ne hzx hzy, Function.update_of_ne (ρ.injective.ne hzy)]

/-! ## One step -/

/-- A clash seen from the other side, under other names. -/
def Clash.mirror (ρ : VarIdent → VarIdent) : Clash → Clash
  | .mismatch expected found => .mismatch (found.rename ρ) (expected.rename ρ)
  | .infinite var containing => .infinite (var.rename ρ) (containing.rename ρ)
  | .arity expected found kind => .arity found expected kind
  | .stepLimit limit => .stepLimit limit

/-- What two trees ask for, and what they ask for turned around under other names. -/
inductive Answers (ρ : Equiv.Perm VarIdent) : Except Clash Move → Except Clash Move → Prop
  | clash (c : Clash) : Answers ρ (.error c) (.error (c.mirror ρ))
  | split (ps : List (TypeTree × TypeTree)) :
      Answers ρ (.ok (.split ps)) (.ok (.split (ps.map fun p => (p.2.rename ρ, p.1.rename ρ))))
  | bind (x : VarIdent) (r : TypeTree) :
      Answers ρ (.ok (.bind x r)) (.ok (.bind (ρ x) (r.rename ρ)))
  | cross {x y : VarIdent} (h : x ≠ y) :
      Answers ρ (.ok (.bind x (var y))) (.ok (.bind (ρ y) (var (ρ x))))

theorem rename_injective (ρ : Equiv.Perm VarIdent) : Function.Injective (rename ρ) := fun _ _ h =>
  rename_injOn ρ.injective.injOn h

theorem answers_bind (ρ : Equiv.Perm VarIdent) (x : VarIdent) (r : TypeTree) :
    Answers ρ (bindMove x r) (bindMove (ρ x) (r.rename ρ)) := by
  have hiff : Occurs (ρ x) (r.rename ρ) ↔ Occurs x r := by
    rw [occurs_rename]
    exact ⟨fun ⟨y, hy, hyx⟩ => ρ.injective hyx ▸ hy, fun h => ⟨x, h, rfl⟩⟩
  unfold bindMove
  by_cases h : Occurs x r
  · rw [if_pos h, if_pos (hiff.mpr h), ← rename_var]
    exact .clash (.infinite (var x) r)
  · rw [if_neg h, if_neg (mt hiff.mp h)]
    exact .bind x r

theorem shape_rename (h : t.shape.isVar = false) :
    (t.rename ρ).shape = t.shape.map (rename ρ) := by
  obtain ⟨s⟩ := t
  rw [shape_mk] at h
  rw [rename_mk h, shape_mk, shape_mk]

theorem varIdent?_rename (t : TypeTree) :
    (t.rename ρ).shape.varIdent? = t.shape.varIdent?.map ρ := by
  by_cases h : t.shape.isVar = true
  · obtain ⟨x, hx⟩ := Shape.isVar_iff.mp h
    rw [← mk_shape t, hx, rename_var]
    rfl
  · have h : t.shape.isVar = false := by simpa using h
    rw [shape_rename h, Shape.varIdent?_map, Shape.varIdent?_eq_none h]
    rfl

theorem answers_split (ρ : Equiv.Perm VarIdent) (ha : a.shape.isVar = false)
    (hb : b.shape.isVar = false) :
    Answers ρ (splitMove a b) (splitMove (b.rename ρ) (a.rename ρ)) := by
  have hgeneric : ¬ (b.rename ρ).Generic ∧ ¬ (a.rename ρ).Generic ↔ ¬ a.Generic ∧ ¬ b.Generic := by
    rw [generic_rename, generic_rename, and_comm]
  unfold splitMove
  by_cases hg : ¬ a.Generic ∧ ¬ b.Generic
  · rw [if_pos hg, if_pos (hgeneric.mpr hg)]
    exact .clash (.mismatch a b)
  rw [if_neg hg, if_neg (mt hgeneric.mp hg), headClash, headClash, shape_rename ha,
    shape_rename hb, Shape.sameHead_map, Shape.compared_map, Shape.counts?_map]
  by_cases hh : a.shape.SameHead b.shape
  · rw [if_pos hh, if_pos hh.symm, Shape.compared_swap a.shape b.shape, List.map_map]
    exact .split (a.shape.compared b.shape)
  · rw [if_neg hh, if_neg (mt Shape.SameHead.symm hh), Shape.counts?_swap a.shape b.shape]
    cases a.shape.counts? b.shape with
    | none => exact .clash (.mismatch a b)
    | some c => exact .clash (.arity c.1 c.2.1 c.2.2)

/-- Two trees turned around under other names ask for the same, seen from the other side. -/
theorem answers_move (ρ : Equiv.Perm VarIdent) (a b : TypeTree) :
    Answers ρ (move a b) (move (b.rename ρ) (a.rename ρ)) := by
  have herror : ∀ t : TypeTree, t.rename ρ = error ↔ t = error := fun t =>
    ⟨fun h => rename_injective ρ (h.trans (rename_prim .error).symm),
      fun h => by rw [h, rename_prim]⟩
  have hsame : (b.rename ρ = a.rename ρ ∨ b.rename ρ = error ∨ a.rename ρ = error) ↔
      (a = b ∨ a = error ∨ b = error) := by
    rw [herror, herror, (rename_injective ρ).eq_iff, eq_comm, or_comm (a := b = error)]
  rcases move_cases a b with
    ⟨h, hm⟩ | ⟨x, rfl, hab, hae, hbe, hm⟩ | ⟨y, rfl, hab, hae, hbe, ha, hm⟩ |
      ⟨hab, hae, hbe, ha, hb, hm⟩
  · rw [hm, move, if_pos (hsame.mpr h)]
    exact .split []
  · rw [hm, move, if_neg (mt hsame.mp (by simp [hab, hae, hbe])), varIdent?_rename,
      varIdent?_rename]
    cases hb : b.shape.varIdent? with
    | none => exact answers_bind ρ x b
    | some y =>
      -- each side binds the variable that it has on the left
      obtain rfl := eq_var_of_varIdent? hb
      have hxy : x ≠ y := fun h => hab (congrArg var h)
      have hok : bindMove x (var y) = .ok (.bind x (var y)) := if_neg (by simpa using hxy.symm)
      have hok' : bindMove (ρ y) (var (ρ x)) = .ok (.bind (ρ y) (var (ρ x))) :=
        if_neg (by simpa using ρ.injective.ne hxy)
      rw [rename_var, hok]
      change Answers ρ _ (bindMove (ρ y) (var (ρ x)))
      rw [hok']
      exact .cross hxy
  · rw [hm, move, if_neg (mt hsame.mp (by simp [hab, hae, hbe])), varIdent?_rename,
      varIdent?_rename, Shape.varIdent?_eq_none ha]
    exact answers_bind ρ y a
  · rw [hm, move, if_neg (mt hsame.mp (by simp [hab, hae, hbe])), varIdent?_rename,
      varIdent?_rename, Shape.varIdent?_eq_none ha, Shape.varIdent?_eq_none hb]
    exact answers_split ρ ha hb

/-! ## The run -/

/-- A pair that waits in one run and the pair that waits in its place in the other one. -/
structure Mirrored (ρ : VarIdent → VarIdent) (found found' : Bound) (p q : TypeTree × TypeTree) :
    Prop where
  left : applyAll found' q.1 = (applyAll found p.2).rename ρ
  right : applyAll found' q.2 = (applyAll found p.1).rename ρ

theorem Mirrored.bind {p q : TypeTree × TypeTree} (h : Mirrored ρ found found' p q) (x : VarIdent)
    (r : TypeTree) : Mirrored ρ ((x, r) :: found) ((ρ x, r.rename ρ) :: found') p q where
  left := by rw [applyAll_cons, applyAll_cons, h.left, rename_replace]
  right := by rw [applyAll_cons, applyAll_cons, h.right, rename_replace]

theorem Mirrored.cross {p q : TypeTree × TypeTree} (h : Mirrored ρ found found' p q) (hxy : x ≠ y) :
    Mirrored ((Equiv.swap x y).trans ρ) ((x, var y) :: found) ((ρ y, var (ρ x)) :: found') p q where
  left := by rw [applyAll_cons, applyAll_cons, h.left, rename_replace_swap hxy]
  right := by rw [applyAll_cons, applyAll_cons, h.right, rename_replace_swap hxy]

/-- Both runs succeed, or both fail with clashes that mirror each other. -/
abbrev MirroredResult : Except (Clash × Bound) Bound → Except (Clash × Bound) Bound → Prop :=
  RelExcept (fun f g => ∃ ρ : Equiv.Perm VarIdent, g.1 = f.1.mirror ρ) fun _ _ => True

/-- Runs on pairs that mirror each other mirror each other. -/
theorem unifyPairs_mirrored (limit budget : Nat) (hfound : Triangular found)
    (hfound' : Triangular found') (h : List.Forall₂ (Mirrored ρ found found') pairs pairs') :
    MirroredResult (unifyPairs limit budget pairs found)
      (unifyPairs limit budget pairs' found') := by
  induction budget generalizing pairs pairs' found found' ρ with
  | zero =>
    cases h with
    | nil => exact .ok trivial
    | cons => exact .error ⟨ρ, rfl⟩
  | succ budget ih =>
    cases h with
    | nil => exact .ok trivial
    | @cons p q rest rest' hpq hrest =>
      obtain ⟨a, b⟩ := p
      obtain ⟨b', a'⟩ := q
      have hmove := answers_move ρ (applyAll found a) (applyAll found b)
      rw [← hpq.left, ← hpq.right] at hmove
      rw [unifyPairs, unifyPairs]
      generalize hm : move (applyAll found a) (applyAll found b) = m at hmove
      generalize hm' : move (applyAll found' b') (applyAll found' a') = m' at hmove
      cases hmove with
      | clash c => exact .error ⟨ρ, rfl⟩
      | bind x r =>
        exact ih (hfound.bind hm) (hfound'.bind hm') (hrest.imp fun _ _ h => h.bind x r)
      | cross hxy =>
        exact ih (hfound.bind hm) (hfound'.bind hm') (hrest.imp fun _ _ h => h.cross hxy)
      | split ps =>
        refine ih hfound hfound' (List.rel_append ?_ hrest)
        rw [List.forall₂_map_right_iff, List.forall₂_same]
        intro p hp
        obtain ⟨h₁, h₂⟩ := hfound.applyAll_split hm hp
        obtain ⟨h₁', h₂'⟩ := hfound'.applyAll_split hm' (List.mem_map_of_mem hp)
        exact ⟨by rw [h₁', h₂], by rw [h₂', h₁]⟩

end TypeTree

/-- Two errors of the same kind, with the same limit, and with counts that are swapped. -/
inductive UnifyError.Mirrors : UnifyError → UnifyError → Prop
  | mismatch (a b a' b' : TypeId) : Mirrors (.mismatch a b) (.mismatch a' b')
  | infinite (v a v' a' : TypeId) : Mirrors (.infinite v a) (.infinite v' a')
  | arity (m n : Nat) (kind : ArityKind) : Mirrors (.arity m n kind) (.arity n m kind)
  | stepLimit (limit : Nat) : Mirrors (.stepLimit limit) (.stepLimit limit)

namespace StoreM

open Store TypeTree

theorem mirrors_of_read {st st' : Store} {e e' : UnifyError} {ρ : VarIdent → VarIdent}
    (h : e'.read st' = (e.read st).mirror ρ) : e.Mirrors e' := by
  cases e <;> cases e' <;> simp only [UnifyError.read, Clash.mirror, reduceCtorEq] at h
  case mismatch.mismatch => exact .mismatch ..
  case infinite.infinite => exact .infinite ..
  case arity.arity =>
    obtain ⟨rfl, rfl, rfl⟩ := Clash.arity.inj h
    exact .arity ..
  case stepLimit.stepLimit =>
    obtain rfl := Clash.stepLimit.inj h
    exact .stepLimit _

/-- Unification does not depend on the order of its types: it succeeds both ways or fails both ways,
then for the same reason. -/
theorem unify_mirrored (st : Store) (limit : Nat) (a b : TypeId) (ha : a < st.size)
    (hb : b < st.size) :
    ((∃ s, (unify limit a b st).1 = .ok s) ↔ ∃ s, (unify limit b a st).1 = .ok s) ∧
      ∀ f g, (unify limit a b st).1 = .error f → (unify limit b a st).1 = .error g →
        f.error.Mirrors g.error := by
  have hab := (yields_unify limit ha hb).result
  have hba := (yields_unify limit hb ha).result
  -- before the first step no names differ
  have hstart : Mirrored (Equiv.refl VarIdent) [] [] (st.tree a, st.tree b)
      (st.tree b, st.tree a) :=
    ⟨(rename_eq_self fun _ _ => rfl).symm, (rename_eq_self fun _ _ => rfl).symm⟩
  have hmirror := unifyPairs_mirrored limit limit .nil .nil (.cons hstart .nil)
  refine ⟨?_, fun f g hf hg => ?_⟩
  · rw [hab.exists_ok_iff, hba.exists_ok_iff, hmirror.exists_ok_iff]
  · rw [hf] at hab
    rw [hg] at hba
    rw [hab.2, hba.2] at hmirror
    cases hmirror with
    | error h =>
      obtain ⟨ρ, h⟩ := h
      exact mirrors_of_read h

/-- Both ways a pointer meets what its target was bound to. -/
theorem unify_mirrored_clashingPairs :
    let (p, st) := clashingPairs .new
    p.1 < st.size ∧ p.2 < st.size ∧ ∃ f g, (unify 4 p.1 p.2 st).1 = .error f ∧
      (unify 4 p.2 p.1 st).1 = .error g ∧ f.error.Mirrors g.error := by
  obtain ⟨-, ha, hb, hat, hbt⟩ := yields_clashingPairs .new
  generalize clashingPairs .new = w at *
  obtain ⟨p, st⟩ := w
  obtain ⟨f, hf, -⟩ := exists_unify_error ha hb (by rw [hat, hbt]; exact unifyPairs_clashing)
  obtain ⟨hiff, hmirrors⟩ := unify_mirrored st 4 p.1 p.2 ha hb
  refine ⟨ha, hb, f, ?_⟩
  cases hg : (unify 4 p.2 p.1 st).1 with
  | ok s =>
    obtain ⟨s, hs⟩ := hiff.mpr ⟨s, hg⟩
    cases hf.symm.trans hs
  | error g => exact ⟨g, hf, rfl, hmirrors f g hf hg⟩

end StoreM

end ConstraintTyping
