import ConstraintTyping.Proofs.Types.Rewriting
import ConstraintTyping.Solve.Bindings
import Mathlib.Data.List.Nodup

/-!
# Ordered bindings

Bindings are kept newest first and applied oldest first.  They are triangular when each one binds a
variable that no older one binds, to a tree in which neither it nor an older bound variable occurs.
Applying triangular bindings removes every bound variable for good, so applying them twice is
applying them once.
-/

namespace ConstraintTyping

namespace TypeTree

/-- Variables with their replacements, newest first. -/
abbrev Bound := List (VarIdent × TypeTree)

/-- Replace the variables of a tree by every binding, oldest first. -/
def applyAll (bs : Bound) (t : TypeTree) : TypeTree := bs.foldr (fun p t => t.replace p.1 p.2) t

variable {bs new old : Bound} {x : VarIdent} {r t : TypeTree}

@[simp] theorem applyAll_nil (t : TypeTree) : applyAll [] t = t := rfl

theorem applyAll_cons (x : VarIdent) (r : TypeTree) (bs : Bound) (t : TypeTree) :
    applyAll ((x, r) :: bs) t = (applyAll bs t).replace x r := rfl

theorem applyAll_append (new old : Bound) (t : TypeTree) :
    applyAll (new ++ old) t = applyAll new (applyAll old t) := by
  simp only [applyAll, List.foldr_append]

/-- Bindings act on a tree as one simultaneous replacement. -/
theorem applyAll_eq_subst (bs : Bound) (t : TypeTree) :
    applyAll bs t = t.subst fun x => applyAll bs (var x) := by
  induction bs with
  | nil => exact (subst_var_eq_self t).symm
  | cons p bs ih =>
    obtain ⟨x, r⟩ := p
    rw [applyAll_cons, ih, replace, subst_subst]
    rfl

theorem applyAll_mk (bs : Bound) {s : Shape TypeTree} (h : s.isVar = false) :
    applyAll bs (mk s) = mk (s.map (applyAll bs)) := by
  rw [applyAll_eq_subst, subst_mk h]
  exact congrArg mk (Shape.map_congr fun c _ => (applyAll_eq_subst bs c).symm)

@[simp] theorem applyAll_prim (bs : Bound) (p : Prim) : applyAll bs (prim p) = prim p :=
  applyAll_mk bs rfl

/-- Bindings of variables that do not occur change nothing. -/
theorem applyAll_eq_self (h : ∀ x ∈ bs.map Prod.fst, ¬ Occurs x t) : applyAll bs t = t := by
  induction bs with
  | nil => rfl
  | cons p bs ih =>
    obtain ⟨x, r⟩ := p
    rw [applyAll_cons, ih fun y hy => h y (List.mem_cons_of_mem _ hy)]
    exact replace_eq_self (h x List.mem_cons_self)

theorem Inherited.applyAll {P : TypeTree → Prop} (hP : Inherited P) (ht : P t)
    (hbs : ∀ p ∈ bs, P p.2) : P (applyAll bs t) := by
  induction bs with
  | nil => exact ht
  | cons p bs ih =>
    exact hP.replace p.1 (ih fun q hq => hbs q (List.mem_cons_of_mem _ hq))
      (hbs p List.mem_cons_self)

/-- A substitution that identifies every bound variable with its replacement absorbs the
bindings. -/
theorem subst_applyAll {σ : VarIdent → TypeTree} (h : ∀ p ∈ bs, σ p.1 = p.2.subst σ)
    (t : TypeTree) : (applyAll bs t).subst σ = t.subst σ := by
  induction bs with
  | nil => rfl
  | cons p bs ih =>
    obtain ⟨x, r⟩ := p
    rw [applyAll_cons, subst_replace (h (x, r) List.mem_cons_self)]
    exact ih fun q hq => h q (List.mem_cons_of_mem _ hq)

/-- Each binding avoids its own variable and those bound before it. -/
inductive Triangular : Bound → Prop
  | nil : Triangular []
  | cons {x : VarIdent} {r : TypeTree} {old : Bound} (hx : x ∉ old.map Prod.fst)
      (hr : ¬ Occurs x r) (hold : ∀ y ∈ old.map Prod.fst, ¬ Occurs y r) :
      Triangular old → Triangular ((x, r) :: old)

namespace Triangular

/-- Triangular bindings leave no bound variable behind. -/
theorem not_occurs (h : Triangular bs) (hx : x ∈ bs.map Prod.fst) (t : TypeTree) :
    ¬ Occurs x (applyAll bs t) := by
  induction h with
  | nil => simp at hx
  | @cons y r old hy hr hold _ ih =>
    rw [applyAll_cons]
    by_cases hxy : x = y
    · subst hxy
      exact not_occurs_replace_self hr
    · have hx : x ∈ old.map Prod.fst := by
        rcases List.mem_cons.mp hx with h | h
        · exact absurd h hxy
        · exact h
      intro ho
      rcases occurs_replace ho with ⟨ho, -⟩ | ⟨-, ho⟩
      · exact ih hx ho
      · exact hold x hx ho

theorem nodup (h : Triangular bs) : (bs.map Prod.fst).Nodup := by
  induction h with
  | nil => exact List.nodup_nil
  | cons hx _ _ _ ih => exact List.nodup_cons.mpr ⟨hx, ih⟩

/-- Applying triangular bindings a second time changes nothing. -/
theorem applyAll_applyAll (h : Triangular bs) (t : TypeTree) :
    applyAll bs (applyAll bs t) = applyAll bs t :=
  applyAll_eq_self fun _ hx => h.not_occurs hx t

/-- What triangular bindings were applied to has constituents that they do not change. -/
theorem applyAll_child {c : TypeTree} (h : Triangular bs)
    (hc : c ∈ (applyAll bs t).shape.children) : applyAll bs c = c := by
  refine applyAll_eq_self fun x hx hocc => h.not_occurs hx t ?_
  rw [← mk_shape (applyAll bs t)]
  exact occurs_mk.mpr (.inr ⟨c, hc, hocc⟩)

/-- Bindings that go on from triangular ones do not notice whether those were applied before. -/
theorem applyAll_append_applyAll (h : Triangular old) (new : Bound) (t : TypeTree) :
    applyAll (new ++ old) (applyAll old t) = applyAll (new ++ old) t := by
  rw [applyAll_append, applyAll_append, h.applyAll_applyAll]

/-- Newer triangular bindings over variables that the older ones do not bind. -/
theorem append (hnew : Triangular new) (hold : Triangular old)
    (hdom : ∀ x ∈ new.map Prod.fst, x ∉ old.map Prod.fst)
    (hran : ∀ p ∈ new, ∀ y ∈ old.map Prod.fst, ¬ Occurs y p.2) : Triangular (new ++ old) := by
  induction hnew with
  | nil => exact hold
  | @cons x r new hx hr hnew' _ ih =>
    rw [List.cons_append]
    refine .cons ?_ hr ?_ (ih (fun y hy => hdom y (List.mem_cons_of_mem _ hy))
      fun p hp => hran p (List.mem_cons_of_mem _ hp))
    · rw [List.map_append, List.mem_append, not_or]
      exact ⟨hx, hdom x List.mem_cons_self⟩
    · intro y hy
      rw [List.map_append, List.mem_append] at hy
      rcases hy with hy | hy
      · exact hnew' y hy
      · exact hran (x, r) List.mem_cons_self y hy

end Triangular

end TypeTree

/-! ## Bindings of a store -/

namespace Bindings

open Store TypeTree

variable {st st' : Store} {b : Bindings} {ty : TypeId}

/-- Bindings of variables of a store to types of the store. -/
def Within (b : Bindings) (st : Store) : Prop :=
  ∀ p ∈ b.pairs, st.isVar p.1 = true ∧ p.2 < st.size

/-- Bindings of a store as bindings of trees. -/
def read (b : Bindings) (st : Store) : Bound :=
  b.pairs.filterMap fun p => (st.shape p.1).varIdent?.map fun x => (x, st.tree p.2)

theorem within_empty (st : Store) : Within .empty st := by simp [Within, empty]

@[simp] theorem read_empty (st : Store) : read .empty st = [] := rfl

theorem Within.of_le (h : b.Within st) (hle : st ≤ st') : b.Within st' := by
  intro p hp
  obtain ⟨hv, hr⟩ := h p hp
  exact ⟨by rw [isVar_of_le hle (lt_size_of_isVar hv), hv], lt_size_of_le hle hr⟩

theorem read_of_le (h : b.Within st) (hle : st ≤ st') : b.read st' = b.read st := by
  refine List.filterMap_congr fun p hp => ?_
  obtain ⟨hv, hr⟩ := h p hp
  rw [shape_of_le hle (lt_size_of_isVar hv), tree_of_le hle hr]

theorem Within.prepend {v r : TypeId} (h : b.Within st) (hv : st.isVar v = true)
    (hr : r < st.size) : (b.prepend v r).Within st := by
  intro p hp
  rcases List.mem_cons.mp hp with rfl | hp
  · exact ⟨hv, hr⟩
  · exact h p hp

theorem Within.andThen {newer : Bindings} (h : b.Within st) (hn : newer.Within st) :
    (b.andThen newer).Within st := by
  intro p hp
  rcases List.mem_append.mp hp with hp | hp
  · exact hn p hp
  · exact h p hp

theorem read_prepend {v r : TypeId} {x : VarIdent} (hv : st.shape v = .var x) :
    (b.prepend v r).read st = (x, st.tree r) :: b.read st := by
  simp [read, prepend, hv, Shape.varIdent?]

theorem read_andThen (b newer : Bindings) (st : Store) :
    (b.andThen newer).read st = newer.read st ++ b.read st := by
  simp [read, andThen]

/-- The variables bound in a store are the variables of the bindings as read. -/
theorem mem_read {v r : TypeId} {x : VarIdent} (hp : (v, r) ∈ b.pairs)
    (hv : st.shape v = .var x) : (x, st.tree r) ∈ b.read st :=
  List.mem_filterMap.mpr ⟨(v, r), hp, by simp [hv, Shape.varIdent?]⟩

/-- One replacement after the other, as long as there are bindings. -/
theorem yields_replaceVars {st₀ : Store} (ps : List (TypeId × TypeId))
    (hps : ∀ p ∈ ps, st₀.isVar p.1 = true ∧ p.2 < st₀.size) (hle : Steps st₀ st)
    (hty : ty < st.size) :
    (ps.foldlM (fun ty (p : TypeId × TypeId) => StoreM.replaceVar ty p.1 p.2) ty).Yields st
      fun r st' => r < st'.size ∧
        st'.tree r = applyAll (read ⟨ps.reverse⟩ st₀) (st.tree ty) := by
  induction ps generalizing st ty with
  | nil => exact StoreM.yields_pure ⟨hty, rfl⟩
  | cons p ps ih =>
    obtain ⟨v, r⟩ := p
    obtain ⟨hv, hr⟩ := hps (v, r) List.mem_cons_self
    obtain ⟨x, hx⟩ := Shape.isVar_iff.mp hv
    have hx : st₀.shape v = .var x := hx
    have hxst : st.shape v = .var x := (shape_of_le hle.le (lt_size_of_isVar hv)).trans hx
    rw [List.foldlM_cons]
    refine (StoreM.yields_replaceVar hxst (lt_size_of_le hle.le hr) hty).bind ?_
    intro ty₁ st₁ hs₁ ⟨hlt₁, hread₁⟩
    have hrest := ih (fun q hq => hps q (List.mem_cons_of_mem _ hq)) (hle.trans hs₁) hlt₁
    refine hrest.mono fun ty₂ st₂ _ ⟨hlt₂, hread₂⟩ => ⟨hlt₂, ?_⟩
    rw [hread₂, hread₁, tree_of_le hle.le hr]
    simp [read, hx, Shape.varIdent?, applyAll_append, applyAll_cons]

/-- Applying bindings to a type applies them to its tree. -/
theorem yields_apply (hb : b.Within st) (hty : ty < st.size) :
    (b.apply ty).Yields st fun r st' =>
      r < st'.size ∧ st'.tree r = applyAll (b.read st) (st.tree ty) := by
  unfold apply
  refine StoreM.yields_get_bind ?_
  by_cases hg : st.isGeneric ty = true
  · rw [if_pos hg]
    have h := yields_replaceVars b.pairs.reverse
      (fun p hp => hb p (List.mem_reverse.mp hp)) .refl hty
    rw [List.reverse_reverse] at h
    exact h
  · rw [if_neg hg]
    refine StoreM.yields_pure ⟨hty, ?_⟩
    rw [isGeneric_iff hty] at hg
    exact (applyAll_eq_self fun x _ hx => hg ⟨x, hx⟩).symm

/-- Bindings of variables that do not occur in a type keep the type and the store. -/
theorem apply_eq_self (h : ∀ p ∈ b.pairs, ∀ x, st.shape p.1 = .var x → ¬ (st.tree ty).Occurs x) :
    b.apply ty st = (ty, st) := by
  have hfold : ∀ ps : List (TypeId × TypeId), (∀ p ∈ ps, p ∈ b.pairs) →
      ps.foldlM (fun ty (p : TypeId × TypeId) => StoreM.replaceVar ty p.1 p.2) ty st =
        (ty, st) := by
    intro ps hps
    induction ps with
    | nil => rfl
    | cons p ps ih =>
      have hp := h p (hps p List.mem_cons_self)
      have hself : StoreM.replaceVar ty p.1 p.2 st = (ty, st) := by
        refine StoreM.mapVars_eq_self st ty fun v x hv hx => if_neg fun hvp => ?_
        exact hp x (hvp ▸ hv) hx
      rw [List.foldlM_cons]
      simp only [StateM.bind_apply, hself]
      exact ih fun q hq => hps q (List.mem_cons_of_mem p hq)
  unfold apply
  change (ite (st.isGeneric ty = true) _ _ : StoreM TypeId) st = _
  by_cases hg : st.isGeneric ty = true
  · rw [if_pos hg]
    exact hfold _ fun p hp => List.mem_reverse.mp hp
  · rw [if_neg hg]
    rfl

/-- Bindings that read as bindings of distinct variables bind distinct types. -/
theorem nodup_of_read (hb : b.Within st) (h : ((b.read st).map Prod.fst).Nodup) :
    (b.pairs.map Prod.fst).Nodup := by
  have hread : ((b.read st).map Prod.fst).map some =
      (b.pairs.map Prod.fst).map fun v => (st.shape v).varIdent? := by
    obtain ⟨ps⟩ := b
    induction ps with
    | nil => rfl
    | cons p ps ih =>
      obtain ⟨x, hx⟩ := Shape.isVar_iff.mp (hb p List.mem_cons_self).1
      have hx : st.shape p.1 = .var x := hx
      have htail : Within ⟨ps⟩ st := fun q hq => hb q (List.mem_cons_of_mem p hq)
      have hcons : read ⟨p :: ps⟩ st = (x, st.tree p.2) :: read ⟨ps⟩ st := read_prepend hx
      rw [hcons, List.map_cons, List.map_cons, List.map_cons, List.map_cons,
        ih htail (by rw [hcons] at h; exact (List.nodup_cons.mp h).2), hx]
      rfl
  refine List.Nodup.of_map (fun v => (st.shape v).varIdent?) ?_
  rw [← hread]
  exact h.map fun _ _ => Option.some.inj

/-- Applying bindings to one type and then to another, in a store that grows on the way. -/
theorem apply_both {x y : TypeId} (hb : b.Within st) (hx : x < st.size) (hy : y < st.size) :
    let l := b.apply x st
    let r := b.apply y l.2
    Steps st r.2 ∧ (l.1 < r.2.size ∧ r.2.tree l.1 = applyAll (b.read st) (st.tree x)) ∧
      (r.1 < r.2.size ∧ r.2.tree r.1 = applyAll (b.read st) (st.tree y)) := by
  intro l r
  obtain ⟨hl, hlt, hlread⟩ := yields_apply hb hx
  obtain ⟨hr, hrt, hrread⟩ := yields_apply (hb.of_le hl.le) (lt_size_of_le hl.le hy)
  rw [read_of_le hb hl.le, tree_of_le hl.le hy] at hrread
  exact ⟨hl.trans hr, ⟨lt_size_of_le hr.le hlt, (tree_of_le hr.le hlt).trans hlread⟩, hrt, hrread⟩

end Bindings

end ConstraintTyping
