import ConstraintTyping.Proofs.Types.Chains
import ConstraintTyping.Proofs.Types.Variables

/-!
# Types that are alike

Two stores can hold the same types under different numbers, and with different names for their
variables.  A renaming says which variable of the one store stands for which of the other;
`Renaming.Alike` says of a type of the one store and a type of the other that they have the same
qualifiers and, up to the renaming, the same tree.

Types that are alike have the same outermost layer over constituents that are alike, whatever the
stores do later.  Two types of one store are equal exactly when those that are like them are equal.
Everything that a store can be asked about a type therefore has the same answer on both sides.
-/

namespace ConstraintTyping

/-! ## Related lists -/

/-- Related lists, put side by side. -/
theorem rel_zip {α β γ δ : Type} {r : α → β → Prop} {q : γ → δ → Prop} {as : List α} {bs : List β}
    {cs : List γ} {ds : List δ} (h : List.Forall₂ r as bs) (h' : List.Forall₂ q cs ds) :
    List.Forall₂ (fun p p' => r p.1 p'.1 ∧ q p.2 p'.2) (as.zip cs) (bs.zip ds) := by
  induction h generalizing cs ds with
  | nil => exact .nil
  | cons hab _ ih =>
    cases h' with
    | nil => exact .nil
    | cons hcd h' => exact .cons ⟨hab, hcd⟩ (ih h')

/-- Lists related to one list are related to each other. -/
theorem forall₂_join {α β γ : Type} {r : α → β → Prop} {q : α → γ → Prop} {s : β → γ → Prop}
    {as : List α} {bs : List β} {cs : List γ} (h : List.Forall₂ r as bs) (h' : List.Forall₂ q as cs)
    (hs : ∀ a ∈ as, ∀ b c, r a b → q a c → s b c) : List.Forall₂ s bs cs := by
  induction h generalizing cs with
  | nil =>
    cases h'
    exact .nil
  | cons hab _ ih =>
    cases h' with
    | cons hac h' =>
      exact .cons (hs _ List.mem_cons_self _ _ hab hac)
        (ih h' fun a ha => hs a (List.mem_cons_of_mem _ ha))

/-- Lists related in two ways. -/
theorem forall₂_and {α β : Type} {r q : α → β → Prop} {as : List α} {bs : List β}
    (h : List.Forall₂ r as bs) (h' : List.Forall₂ q as bs) :
    List.Forall₂ (fun a b => r a b ∧ q a b) as bs := by
  induction h with
  | nil => exact .nil
  | cons hab _ ih =>
    cases h' with
    | cons hab' h' => exact .cons ⟨hab, hab'⟩ (ih h')

/-! ## Related shapes -/

namespace Shape

variable {α β γ δ : Type} {ρ : VarIdent → VarIdent} {r r' : α → β → Prop} {s : Shape α} {t : Shape β}

/-- Two shapes with the same head over related constituents, variables renamed by `ρ`. -/
inductive Like (ρ : VarIdent → VarIdent) (r : α → β → Prop) : Shape α → Shape β → Prop
  | prim (p : Prim) : Like ρ r (.prim p) (.prim p)
  | pointer {a : α} {b : β} (h : r a b) : Like ρ r (.pointer a) (.pointer b)
  | array {a : α} {b : β} (h : r a b) (length : Option Nat) :
      Like ρ r (.array a length) (.array b length)
  | tuple {xs : List α} {ys : List β} (h : List.Forall₂ r xs ys) : Like ρ r (.tuple xs) (.tuple ys)
  | function {ret : α} {ret' : β} {params givens : List α} {params' givens' : List β}
      (hret : r ret ret') (hparams : List.Forall₂ r params params')
      (hgivens : List.Forall₂ r givens givens') (isMeta isVariadic : Bool) :
      Like ρ r (.function ⟨ret, params, givens, isMeta, isVariadic⟩)
        (.function ⟨ret', params', givens', isMeta, isVariadic⟩)
  | var (x : VarIdent) : Like ρ r (.var x) (.var (ρ x))
  | product (name : Name) {xs : List α} {ys : List β} (h : List.Forall₂ r xs ys) :
      Like ρ r (.product name xs) (.product name ys)
  | sum (name : Name) {xs : List α} {ys : List β} (h : List.Forall₂ r xs ys) :
      Like ρ r (.sum name xs) (.sum name ys)
  | trait (name : Name) {subject : α} {subject' : β} {xs : List α} {ys : List β}
      (hsubject : r subject subject') (h : List.Forall₂ r xs ys) :
      Like ρ r (.trait name subject xs) (.trait name subject' ys)
  | qualified (q : Qualifier) {a : α} {b : β} (h : r a b) :
      Like ρ r (.qualified q a) (.qualified q b)

namespace Like

theorem children (h : Like ρ r s t) : List.Forall₂ r s.children t.children := by
  cases h with
  | prim | var => exact .nil
  | pointer h | array h | qualified _ h => exact .cons h .nil
  | tuple h | product _ h | sum _ h => exact h
  | trait _ hsubject h => exact .cons hsubject h
  | function hret hparams hgivens => exact .cons hret (List.rel_append hparams hgivens)

theorem mono (h : Like ρ r s t) (hr : ∀ a ∈ s.children, ∀ b ∈ t.children, r a b → r' a b) :
    Like ρ r' s t := by
  have hlist : ∀ {xs : List α} {ys : List β}, List.Forall₂ r xs ys → xs ⊆ s.children →
      ys ⊆ t.children → List.Forall₂ r' xs ys := by
    intro xs ys hxy
    induction hxy with
    | nil => exact fun _ _ => .nil
    | cons hxy _ ih =>
      intro hxs hys
      rw [List.cons_subset] at hxs hys
      exact .cons (hr _ hxs.1 _ hys.1 hxy) (ih hxs.2 hys.2)
  cases h with
  | prim p => exact .prim p
  | var x => exact .var x
  | pointer h => exact .pointer (hr _ List.mem_cons_self _ List.mem_cons_self h)
  | array h length => exact .array (hr _ List.mem_cons_self _ List.mem_cons_self h) length
  | qualified q h => exact .qualified q (hr _ List.mem_cons_self _ List.mem_cons_self h)
  | tuple h => exact .tuple (hlist h (List.Subset.refl _) (List.Subset.refl _))
  | product name h => exact .product name (hlist h (List.Subset.refl _) (List.Subset.refl _))
  | sum name h => exact .sum name (hlist h (List.Subset.refl _) (List.Subset.refl _))
  | trait name hsubject h =>
    exact .trait name (hr _ List.mem_cons_self _ List.mem_cons_self hsubject)
      (hlist h (List.subset_cons_self _ _) (List.subset_cons_self _ _))
  | function hret hparams hgivens isMeta isVariadic =>
    refine .function (hr _ List.mem_cons_self _ List.mem_cons_self hret) (hlist hparams ?_ ?_)
      (hlist hgivens ?_ ?_) isMeta isVariadic <;>
    intro c hc <;> simp [Shape.children, Signature.children, hc]

theorem isVar_eq (h : Like ρ r s t) : t.isVar = s.isVar := by cases h <;> rfl

theorem signature?_none (h : Like ρ r s t) (hs : s.signature? = none) : t.signature? = none := by
  cases h with
  | function => cases hs
  | _ => rfl

theorem isQualified_eq (h : Like ρ r s t) : t.isQualified = s.isQualified := by cases h <;> rfl

/-- The shapes under maps that the relation joins. -/
theorem map_eq {f : α → γ} {g : β → γ} (h : Like ρ r s t) (hv : s.isVar = false)
    (hr : ∀ a b, r a b → f a = g b) : s.map f = t.map g := by
  have hlist : ∀ {xs : List α} {ys : List β}, List.Forall₂ r xs ys → xs.map f = ys.map g := by
    intro xs ys hxy
    induction hxy with
    | nil => rfl
    | cons hxy _ ih => rw [List.map_cons, List.map_cons, hr _ _ hxy, ih]
  cases h with
  | prim p => rfl
  | var x => cases hv
  | pointer h => exact congrArg Shape.pointer (hr _ _ h)
  | array h length => simp only [Shape.map, hr _ _ h]
  | qualified q h => simp only [Shape.map, hr _ _ h]
  | tuple h => exact congrArg Shape.tuple (hlist h)
  | product name h => exact congrArg (Shape.product name) (hlist h)
  | sum name h => exact congrArg (Shape.sum name) (hlist h)
  | trait name hsubject h => simp only [Shape.map, hr _ _ hsubject, hlist h]
  | function hret hparams hgivens isMeta isVariadic =>
    simp only [Shape.map, Signature.map, hr _ _ hret, hlist hparams, hlist hgivens]

end Like

/-- Shapes that agree under maps have the same head. -/
theorem like_of_map_eq {f : α → γ} {g : β → γ} (h : s.map f = t.map g) (hv : s.isVar = false) :
    Like ρ (fun a b => f a = g b) s t := by
  have hlist : ∀ {xs : List α} {ys : List β}, xs.map f = ys.map g →
      List.Forall₂ (fun a b => f a = g b) xs ys := fun h => by
    rw [← List.forall₂_eq_eq_eq, List.forall₂_map_left_iff, List.forall₂_map_right_iff] at h
    exact h
  cases s <;> cases t <;> simp only [map, reduceCtorEq] at h
  case prim.prim => obtain rfl := Shape.prim.inj h; exact .prim _
  case var.var => cases hv
  case pointer.pointer => exact .pointer (Shape.pointer.inj h)
  case array.array => 
    obtain ⟨helem, rfl⟩ := Shape.array.inj h
    exact Like.array (r := fun a b => f a = g b) helem _
  case qualified.qualified => obtain ⟨rfl, hbase⟩ := Shape.qualified.inj h; exact .qualified _ hbase
  case tuple.tuple => exact .tuple (hlist (Shape.tuple.inj h))
  case product.product => obtain ⟨rfl, hargs⟩ := Shape.product.inj h; exact .product _ (hlist hargs)
  case sum.sum => obtain ⟨rfl, hargs⟩ := Shape.sum.inj h; exact .sum _ (hlist hargs)
  case trait.trait =>
    obtain ⟨rfl, hsubject, hargs⟩ := Shape.trait.inj h
    exact .trait _ hsubject (hlist hargs)
  case function.function sig sig' =>
    obtain ⟨ret, params, givens, isMeta, isVariadic⟩ := sig
    obtain ⟨ret', params', givens', isMeta', isVariadic'⟩ := sig'
    simp only [Shape.function.injEq, Signature.map, Signature.mk.injEq] at h
    obtain ⟨hret, hparams, hgivens, rfl, rfl⟩ := h
    have hparams' := hlist hparams
    have hgivens' := hlist hgivens
    exact Like.function (r := fun a b => f a = g b) hret hparams' hgivens' _ _

end Shape

/-! ## Renamed trees -/

namespace TypeTree

variable {ρ σ : VarIdent → VarIdent} {t u : TypeTree}

/-- A tree with other names for its variables. -/
def rename (ρ : VarIdent → VarIdent) (t : TypeTree) : TypeTree := t.subst fun x => var (ρ x)

@[simp] theorem rename_var (x : VarIdent) : (var x).rename ρ = var (ρ x) := subst_var _ _

theorem rename_mk {s : Shape TypeTree} (h : s.isVar = false) :
    (mk s).rename ρ = mk (s.map (rename ρ)) :=
  subst_mk h

@[simp] theorem rename_prim (p : Prim) : (prim p).rename ρ = prim p := subst_prim _ _

theorem rename_congr (h : ∀ x, Occurs x t → ρ x = σ x) : t.rename ρ = t.rename σ :=
  subst_congr fun x hx => congrArg var (h x hx)

/-- Nothing changes when every variable keeps its name. -/
theorem rename_eq_self (h : ∀ x, Occurs x t → ρ x = x) : t.rename ρ = t :=
  subst_eq_self fun x hx => congrArg var (h x hx)

theorem occurs_rename {y : VarIdent} : Occurs y (t.rename ρ) ↔ ∃ x, Occurs x t ∧ ρ x = y := by
  unfold rename
  rw [occurs_subst]
  exact exists_congr fun x => and_congr_right fun _ => occurs_var

theorem generic_rename : (t.rename ρ).Generic ↔ t.Generic := by
  constructor
  · rintro ⟨y, hy⟩
    obtain ⟨x, hx, -⟩ := occurs_rename.mp hy
    exact ⟨x, hx⟩
  · rintro ⟨x, hx⟩
    exact ⟨ρ x, occurs_rename.mpr ⟨x, hx, rfl⟩⟩

theorem isVar_shape_rename (t : TypeTree) : (t.rename ρ).shape.isVar = t.shape.isVar := by
  obtain ⟨s⟩ := t
  cases s <;> rw [rename, subst, fold_mk] <;> rfl

theorem faultless_rename : (t.rename ρ).Faultless ↔ t.Faultless := by
  induction t using induction with
  | step s ih =>
    by_cases hv : s.isVar = true
    · obtain ⟨x, rfl⟩ := Shape.isVar_iff.mp hv
      rw [rename_var]
      exact iff_of_true (faultless_var _) (faultless_var _)
    · rw [rename_mk (by simpa using hv), faultless_mk, faultless_mk, Shape.isError_map,
        Shape.children_map, List.forall_mem_map]
      exact and_congr_right' (forall₂_congr ih)

/-- A renaming that keeps the variables of two trees apart keeps the trees apart. -/
theorem rename_injOn (hinj : Set.InjOn ρ { x | Occurs x t ∨ Occurs x u })
    (h : t.rename ρ = u.rename ρ) : t = u := by
  induction t using induction generalizing u with
  | step s ih =>
    obtain ⟨s'⟩ := u
    have hvar := (isVar_shape_rename (ρ := ρ) (mk s)).symm.trans
      ((congrArg (Shape.isVar ∘ shape) h).trans (isVar_shape_rename (mk s')))
    rw [shape_mk, shape_mk] at hvar
    by_cases hv : s.isVar = true
    · obtain ⟨x, rfl⟩ := Shape.isVar_iff.mp hv
      obtain ⟨y, rfl⟩ := Shape.isVar_iff.mp (hvar.symm.trans hv)
      rw [rename_var, rename_var] at h
      rw [hinj (.inl (occurs_var.mpr rfl)) (.inr (occurs_var.mpr rfl))
        (Shape.var.inj (TypeTree.mk.inj h))]
    · have hv : s.isVar = false := by simpa using hv
      rw [rename_mk hv, rename_mk (hvar.symm.trans hv)] at h
      have hlike := Shape.like_of_map_eq (ρ := id) (TypeTree.mk.inj h) hv
      have heq : Shape.Like id Eq s s' := hlike.mono fun c hc c' hc' hcc => by
        refine ih c hc (hinj.mono ?_) hcc
        rintro x (hx | hx)
        · exact .inl (occurs_mk.mpr (.inr ⟨c, hc, hx⟩))
        · exact .inr (occurs_mk.mpr (.inr ⟨c', hc', hx⟩))
      have hid := heq.map_eq (f := id) (g := id) hv fun _ _ h => h
      rw [Shape.map_id, Shape.map_id] at hid
      rw [hid]

end TypeTree

/-! ## Types of two stores -/

/-- New names for variables, different for different ones of those that matter. -/
structure Renaming where
  /-- The new name of a variable. -/
  name : VarIdent → VarIdent
  /-- The variables that matter. -/
  dom : Set VarIdent
  injOn : Set.InjOn name dom

/-- Two stores side by side. -/
abbrev Stores := Store × Store

namespace Renaming

open Store TypeTree

variable {R : Renaming} {w w' : Stores} {a a' b b' : TypeId} {as : List TypeId} {bs : List TypeId}

/-- The renaming that changes no name. -/
def refl : Renaming := ⟨id, Set.univ, Set.injOn_id _⟩

/-- A type of the left store and one of the right store are the same up to a renaming. -/
structure Alike (R : Renaming) (w : Stores) (a b : TypeId) : Prop where
  left_lt : a < w.1.size
  right_lt : b < w.2.size
  qualifiers : w.2.qualifiers b = w.1.qualifiers a
  tree : w.2.tree b = (w.1.tree a).rename R.name
  occurs : ∀ x, (w.1.tree a).Occurs x → x ∈ R.dom

/-- Lists of types that are alike one by one. -/
abbrev AllAlike (R : Renaming) (w : Stores) (as bs : List TypeId) : Prop :=
  List.Forall₂ (R.Alike w) as bs

theorem Alike.of_le (h : R.Alike w a b) (hle : w ≤ w') : R.Alike w' a b where
  left_lt := lt_size_of_le hle.1 h.left_lt
  right_lt := lt_size_of_le hle.2 h.right_lt
  qualifiers := by
    rw [qualifiers_of_le hle.1 h.left_lt, qualifiers_of_le hle.2 h.right_lt, h.qualifiers]
  tree := by rw [tree_of_le hle.1 h.left_lt, tree_of_le hle.2 h.right_lt, h.tree]
  occurs := by rw [tree_of_le hle.1 h.left_lt]; exact h.occurs

theorem AllAlike.of_le (h : R.AllAlike w as bs) (hle : w ≤ w') : R.AllAlike w' as bs :=
  h.imp fun _ _ h => h.of_le hle

theorem AllAlike.left_lt (h : R.AllAlike w as bs) : ∀ a ∈ as, a < w.1.size := by
  induction h with
  | nil => exact fun _ h => by cases h
  | cons h _ ih => exact List.forall_mem_cons.mpr ⟨h.left_lt, ih⟩

theorem AllAlike.right_lt (h : R.AllAlike w as bs) : ∀ b ∈ bs, b < w.2.size := by
  induction h with
  | nil => exact fun _ h => by cases h
  | cons h _ ih => exact List.forall_mem_cons.mpr ⟨h.right_lt, ih⟩

/-- Types that are alike are so under every renaming that gives their variables the same names. -/
theorem Alike.congr (h : R.Alike w a b) {R' : Renaming}
    (hname : ∀ x, (w.1.tree a).Occurs x → x ∈ R'.dom ∧ R'.name x = R.name x) : R'.Alike w a b where
  left_lt := h.left_lt
  right_lt := h.right_lt
  qualifiers := h.qualifiers
  tree := h.tree.trans (rename_congr fun x hx => (hname x hx).2.symm)
  occurs x hx := (hname x hx).1

/-- Types without variables that are alike are so under every renaming. -/
theorem Alike.of_not_generic (h : R.Alike w a b) (hg : ¬ (w.1.tree a).Generic) (R' : Renaming) :
    R'.Alike w a b :=
  h.congr fun x hx => absurd ⟨x, hx⟩ hg

theorem alike_prim (R : Renaming) (w : Stores) (p : Prim) :
    R.Alike w (TypeId.ofPrim p) (TypeId.ofPrim p) where
  left_lt := lt_size_of_prim p
  right_lt := lt_size_of_prim p
  qualifiers := by
    have hq : ∀ st : Store, st.qualifiers (TypeId.ofPrim p) = [] := fun st =>
      qualifiers_of_not_qualified (by rw [show st.shape (TypeId.ofPrim p) = .prim p from shape_prim p]; rfl)
    rw [hq, hq]
  tree := by rw [tree_prim, tree_prim, rename_prim]
  occurs x hx := by
    rw [tree_prim, occurs_mk] at hx
    simp [Shape.varIdent?, Shape.children] at hx

/-- A type of a store is like itself in every later store. -/
theorem alike_refl {st : Store} (h₁ : st ≤ w.1) (h₂ : st ≤ w.2) (ha : a < st.size) :
    refl.Alike w a a where
  left_lt := lt_size_of_le h₁ ha
  right_lt := lt_size_of_le h₂ ha
  qualifiers := by rw [qualifiers_of_le h₁ ha, qualifiers_of_le h₂ ha]
  tree := by
    rw [tree_of_le h₁ ha, tree_of_le h₂ ha]
    exact (rename_eq_self fun _ _ => rfl).symm
  occurs _ _ := trivial

namespace Alike

variable (h : R.Alike w a b)

include h

theorem isQualified_eq : (w.2.shape b).isQualified = (w.1.shape a).isQualified := by
  have hq : ∀ (st : Store) (ty : TypeId), (st.shape ty).isQualified = !(st.qualifiers ty).isEmpty := by
    intro st ty
    by_cases hq : (st.shape ty).isQualified = true
    · obtain ⟨q, base, hs⟩ := isQualified_iff.mp hq
      rw [qualifiers_of_qualified hs, hq]
      rfl
    · rw [qualifiers_of_not_qualified (by simpa using hq)]
      simpa using hq
  rw [hq, hq, h.qualifiers]

/-- What is left of types that are alike under their qualifiers is alike. -/
theorem bare : R.Alike w (w.1.bare a) (w.2.bare b) where
  left_lt := bare_lt_size h.left_lt
  right_lt := bare_lt_size h.right_lt
  qualifiers := by rw [qualifiers_of_bare (bare_bare _ _), qualifiers_of_bare (bare_bare _ _)]
  tree := by rw [tree_bare, tree_bare, h.tree]
  occurs := by rw [tree_bare]; exact h.occurs

/-- Types that are alike have the same head over constituents that are alike. -/
theorem shape : Shape.Like R.name (R.Alike w) (w.1.shape a) (w.2.shape b) := by
  by_cases hq : (w.1.shape a).isQualified = true
  · obtain ⟨q, base, hs⟩ := isQualified_iff.mp hq
    obtain ⟨q', base', hs'⟩ := isQualified_iff.mp (h.isQualified_eq.trans hq)
    have hchain := h.qualifiers
    rw [qualifiers_of_qualified hs, qualifiers_of_qualified hs'] at hchain
    obtain ⟨rfl, hrest⟩ := List.cons.inj hchain
    rw [hs, hs']
    refine .qualified q' ⟨(lt_of_qualified hs).trans h.left_lt,
      (lt_of_qualified hs').trans h.right_lt, hrest, ?_, ?_⟩
    · rw [← tree_of_qualified hs, ← tree_of_qualified hs', h.tree]
    · rw [← tree_of_qualified hs]
      exact h.occurs
  have hq : (w.1.shape a).isQualified = false := by simpa using hq
  have hq' := h.isQualified_eq.trans hq
  have htree := h.tree
  have hoccurs := h.occurs
  rw [tree_of_not_qualified hq, tree_of_not_qualified hq'] at htree
  rw [tree_of_not_qualified hq] at hoccurs
  by_cases hv : (w.1.shape a).isVar = true
  · obtain ⟨x, hx⟩ := Shape.isVar_iff.mp hv
    rw [hx, Shape.map, rename_var, TypeTree.mk.injEq] at htree
    obtain ⟨y, hy⟩ : ∃ y, w.2.shape b = .var y := by
      cases hs : w.2.shape b <;> rw [hs] at htree <;> cases htree
      exact ⟨_, rfl⟩
    rw [hy, Shape.map, Shape.var.injEq] at htree
    rw [hx, hy, htree]
    exact .var x
  have hv : (w.1.shape a).isVar = false := by simpa using hv
  rw [rename_mk (by simpa using hv), Shape.map_map, TypeTree.mk.injEq] at htree
  refine (Shape.like_of_map_eq htree.symm hv).mono fun c hc d hd hcd => ?_
  refine ⟨lt_size_of_mem_children h.left_lt hc, lt_size_of_mem_children h.right_lt hd, ?_,
    hcd.symm, fun x hx => hoccurs x (occurs_mk.mpr (.inr ⟨w.1.tree c, ?_, hx⟩))⟩
  · rw [qualifiers_of_bare (bare_of_mem_children h.left_lt hq hc),
      qualifiers_of_bare (bare_of_mem_children h.right_lt hq' hd)]
  · rw [Shape.children_map]
    exact List.mem_map_of_mem hc

theorem children : R.AllAlike w (w.1.children a) (w.2.children b) := h.shape.children

theorem isVar_eq : w.2.isVar b = w.1.isVar a := h.shape.isVar_eq

theorem isGeneric_eq : w.2.isGeneric b = w.1.isGeneric a := by
  rw [Bool.eq_iff_iff, isGeneric_iff h.right_lt, isGeneric_iff h.left_lt, h.tree, generic_rename]

theorem hasError_eq : w.2.hasError b = w.1.hasError a := by
  have hiff : w.2.hasError b = false ↔ w.1.hasError a = false := by
    rw [hasError_eq_false_iff h.right_lt, hasError_eq_false_iff h.left_lt, h.tree, faultless_rename]
  rw [Bool.eq_iff_iff, ← not_iff_not, Bool.not_eq_true, Bool.not_eq_true, hiff]

/-- Two types are equal exactly when those that are like them are. -/
theorem eq_iff (h' : R.Alike w a' b') : a = a' ↔ b = b' := by
  constructor
  · rintro rfl
    refine eq_of_qualifiers_eq h.right_lt h'.right_lt (h.qualifiers.trans h'.qualifiers.symm) ?_
    rw [← tree_eq_iff h.right_lt h'.right_lt, h.tree, h'.tree]
  · rintro rfl
    refine eq_of_qualifiers_eq h.left_lt h'.left_lt (h.qualifiers.symm.trans h'.qualifiers) ?_
    rw [← tree_eq_iff h.left_lt h'.left_lt]
    refine rename_injOn (R.injOn.mono ?_) (h.tree.symm.trans h'.tree)
    rintro x (hx | hx)
    · exact h.occurs x hx
    · exact h'.occurs x hx

theorem isError_eq : b.isError = a.isError := by
  rw [Bool.eq_iff_iff, TypeId.isError, beq_iff_eq, TypeId.isError, beq_iff_eq,
    h.eq_iff (R.alike_prim w .error)]

theorem signature?_none (hs : w.1.signature? a = none) : w.2.signature? b = none :=
  h.shape.signature?_none hs

end Alike

/-- Signatures with the same flags over types that are alike. -/
structure AlikeSig (R : Renaming) (w : Stores) (sig sig' : Signature TypeId) : Prop where
  ret : R.Alike w sig.ret sig'.ret
  params : R.AllAlike w sig.params sig'.params
  givens : R.AllAlike w sig.givens sig'.givens
  isMeta : sig'.isMeta = sig.isMeta
  isVariadic : sig'.isVariadic = sig.isVariadic

theorem Alike.signature?_some (h : R.Alike w a b) {sig : Signature TypeId}
    (hs : w.1.signature? a = some sig) :
    ∃ sig', w.2.signature? b = some sig' ∧ R.AlikeSig w sig sig' := by
  have hshape := h.shape
  rw [shape_of_signature? hs] at hshape
  generalize hb : w.2.shape b = s at hshape
  cases hshape with
  | @function _ ret _ _ params givens hret hparams hgivens isMeta isVariadic =>
    refine ⟨⟨ret, params, givens, isMeta, isVariadic⟩, ?_, hret, hparams, hgivens, rfl, rfl⟩
    rw [Store.signature?, hb]
    rfl

/-! ## Lists of types -/

theorem rel_option_mono {α β : Type} {r q : α → β → Prop} {o : Option α} {o' : Option β}
    (h : Option.Rel r o o') (hrq : ∀ a b, r a b → q a b) : Option.Rel q o o' := by
  cases h with
  | none => exact .none
  | some h => exact .some (hrq _ _ h)

theorem AllAlike.mem_iff (h : R.AllAlike w as bs) (hab : R.Alike w a b) : a ∈ as ↔ b ∈ bs := by
  induction h with
  | nil => simp
  | cons h _ ih => rw [List.mem_cons, List.mem_cons, hab.eq_iff h, ih]

theorem AllAlike.contains_eq (h : R.AllAlike w as bs) (hab : R.Alike w a b) :
    bs.contains b = as.contains a := by
  rw [Bool.eq_iff_iff, List.contains_iff_mem, List.contains_iff_mem, h.mem_iff hab]

theorem AllAlike.eq_iff (h : R.AllAlike w as bs) {as' bs' : List TypeId}
    (h' : R.AllAlike w as' bs') : as = as' ↔ bs = bs' := by
  induction h generalizing as' bs' with
  | nil => cases h' <;> simp
  | cons h _ ih =>
    cases h' with
    | nil => simp
    | cons h' hs' => rw [List.cons.injEq, List.cons.injEq, h.eq_iff h', ih hs']

theorem AllAlike.lookup {β γ : Type} {r : β → γ → Prop} {ps : List (TypeId × β)}
    {qs : List (TypeId × γ)} (h : List.Forall₂ (fun p q => R.Alike w p.1 q.1 ∧ r p.2 q.2) ps qs)
    (hab : R.Alike w a b) : (ps.lookup a = none ∧ qs.lookup b = none) ∨
      ∃ c d, ps.lookup a = some c ∧ qs.lookup b = some d ∧ r c d := by
  induction h with
  | nil => exact .inl ⟨rfl, rfl⟩
  | @cons p q ps qs hpq _ ih =>
    obtain ⟨x, c⟩ := p
    obtain ⟨y, d⟩ := q
    rw [List.lookup_cons, List.lookup_cons]
    by_cases hax : a = x
    · have hby := (hab.eq_iff hpq.1).mp hax
      rw [beq_iff_eq.mpr hax, beq_iff_eq.mpr hby]
      exact .inr ⟨c, d, rfl, rfl, hpq.2⟩
    · have hby : ¬ b = y := fun hby => hax ((hab.eq_iff hpq.1).mpr hby)
      rw [beq_eq_false_iff_ne.mpr hax, beq_eq_false_iff_ne.mpr hby]
      exact ih

/-! ## Variables of types -/

/-- A variable occurs in a type exactly when the variable that is like it occurs in the type that is
like that type. -/
theorem Alike.occurs_eq (h : R.Alike w a b) (h' : R.Alike w a' b') (hv : w.1.isVar a = true) :
    w.2.occurs b b' = w.1.occurs a a' := by
  obtain ⟨x, hx⟩ := Shape.isVar_iff.mp hv
  have hlike := h.shape
  rw [hx] at hlike
  generalize hy : w.2.shape b = s at hlike
  cases hlike
  rw [Bool.eq_iff_iff, occurs_iff hy h'.right_lt, occurs_iff hx h'.left_lt, h'.tree, occurs_rename]
  constructor
  · rintro ⟨z, hz, hzx⟩
    have hmem := h.occurs x (by rw [tree_of_var hx]; exact occurs_var.mpr rfl)
    rwa [R.injOn (h'.occurs z hz) hmem hzx] at hz
  · exact fun hz => ⟨x, hz, rfl⟩

theorem AllAlike.collectVarsFrom (h : R.Alike w a b) (hseen : R.AllAlike w as bs) :
    R.AllAlike w (w.1.collectVarsFrom as a) (w.2.collectVarsFrom bs b) := by
  -- constituents have smaller numbers; what was seen before differs from one to the next
  induction a using Nat.strongRecOn generalizing b as bs with
  | ind a ih =>
    rw [Store.collectVarsFrom, Store.collectVarsFrom, h.isGeneric_eq, h.isVar_eq,
      hseen.contains_eq h]
    by_cases hg : w.1.isGeneric a = true
    swap
    · rw [if_neg hg, if_neg hg]
      exact hseen
    rw [if_pos hg, if_pos hg]
    by_cases hv : w.1.isVar a = true
    · rw [if_pos hv, if_pos hv]
      by_cases hmem : as.contains a = true
      · rw [if_pos hmem, if_pos hmem]
        exact hseen
      · rw [if_neg hmem, if_neg hmem]
        exact List.rel_append hseen (.cons h .nil)
    rw [if_neg hv, if_neg hv]
    -- the constituents add their variables one after the other
    have hloop : ∀ {cs : List { c // c ∈ w.1.children a }} {ds : List { d // d ∈ w.2.children b }},
        R.AllAlike w (cs.map Subtype.val) (ds.map Subtype.val) → ∀ {as bs : List TypeId},
        R.AllAlike w as bs → R.AllAlike w (cs.foldl (fun seen c => w.1.collectVarsFrom seen c.1) as)
          (ds.foldl (fun seen d => w.2.collectVarsFrom seen d.1) bs) := by
      intro cs
      induction cs with
      | nil =>
        intro ds hcd as bs hseen
        cases ds with
        | nil => exact hseen
        | cons => cases hcd
      | cons c cs ihcs =>
        intro ds hcd as bs hseen
        cases ds with
        | nil => cases hcd
        | cons d ds =>
          obtain ⟨hc, hcs⟩ := List.forall₂_cons.mp hcd
          exact ihcs hcs (ih c.1 (lt_of_mem_children c.2) hc hseen)
    refine hloop ?_ hseen
    rw [List.attach_map_subtype_val, List.attach_map_subtype_val]
    exact h.children

theorem Alike.collectVars (h : R.Alike w a b) :
    R.AllAlike w (w.1.collectVars a) (w.2.collectVars b) :=
  AllAlike.collectVarsFrom h .nil

end Renaming

end ConstraintTyping
