import ConstraintTyping.Types.Shape
import Mathlib.Algebra.GroupWithZero.Nat
import Mathlib.Algebra.Order.BigOperators.Group.List
import Mathlib.Algebra.Order.Group.Nat
import Mathlib.Data.List.Basic
import Mathlib.Logic.Function.Basic

/-!
# Types as finite trees

A type table stores each layer of a type once and refers to it by number.  Read without the sharing,
a type is a finite tree of shapes.  This module is about those trees alone: recursion over a tree,
the variables that occur in it, its size, and the simultaneous replacement of its variables.

Qualifiers are no part of the trees that a store is read into, so a tree stands for what is left of
a type when its qualifiers are stripped.
-/

namespace ConstraintTyping

namespace Shape

variable {α β γ : Type}

/-- A shape over its own constituents, each with the proof that it is one. -/
def attach : (s : Shape α) → Shape { c // c ∈ s.children }
  | .prim p => .prim p
  | .pointer target => .pointer ⟨target, by simp [children]⟩
  | .array elem length => .array ⟨elem, by simp [children]⟩ length
  | .tuple items => .tuple items.attach
  | .function sig =>
    .function
      { ret := ⟨sig.ret, by simp [children, Signature.children]⟩
        params := sig.params.attach.map fun c =>
          ⟨c.1, by simp [children, Signature.children, c.2]⟩
        givens := sig.givens.attach.map fun c =>
          ⟨c.1, by simp [children, Signature.children, c.2]⟩
        isMeta := sig.isMeta
        isVariadic := sig.isVariadic }
  | .var ident => .var ident
  | .product name args => .product name args.attach
  | .sum name args => .sum name args.attach
  | .trait name subject args =>
    .trait name ⟨subject, by simp [children]⟩
      (args.attach.map fun c => ⟨c.1, by simp [children, c.2]⟩)
  | .qualified qualifier base => .qualified qualifier ⟨base, by simp [children]⟩

theorem map_attach (s : Shape α) (f : α → β) : s.attach.map (fun c => f c.1) = s.map f := by
  cases s with
  | tuple items => exact congrArg Shape.tuple (List.attach_map_val ..)
  | product name args => exact congrArg (Shape.product name) (List.attach_map_val ..)
  | sum name args => exact congrArg (Shape.sum name) (List.attach_map_val ..)
  | function sig => simp [attach, map, Signature.map, Function.comp_def]
  | trait name subject args => simp [attach, map, Function.comp_def]
  | _ => rfl

theorem sizeOf_lt_of_mem_children [SizeOf α] {s : Shape α} {c : α} (h : c ∈ s.children) :
    sizeOf c < sizeOf s := by
  cases s with
  | prim p => simp [children] at h
  | var ident => simp [children] at h
  | pointer target =>
      obtain rfl := List.mem_singleton.mp h
      simp
  | array elem length =>
      obtain rfl := List.mem_singleton.mp h
      simp only [array.sizeOf_spec]; omega
  | qualified qualifier base =>
      obtain rfl := List.mem_singleton.mp h
      simp only [qualified.sizeOf_spec]; omega
  | tuple items =>
      have := List.sizeOf_lt_of_mem (show c ∈ items from h)
      simp only [tuple.sizeOf_spec]; omega
  | product name args =>
      have := List.sizeOf_lt_of_mem (show c ∈ args from h)
      simp only [product.sizeOf_spec]; omega
  | sum name args =>
      have := List.sizeOf_lt_of_mem (show c ∈ args from h)
      simp only [sum.sizeOf_spec]; omega
  | trait name subject args =>
      rcases List.mem_cons.mp h with rfl | h
      · simp only [trait.sizeOf_spec]; omega
      · have := List.sizeOf_lt_of_mem h
        simp only [trait.sizeOf_spec]; omega
  | function sig =>
      obtain ⟨ret, params, givens, isMeta, isVariadic⟩ := sig
      simp only [children, Signature.children, List.cons_append, List.mem_cons,
        List.mem_append] at h
      simp only [function.sizeOf_spec, Signature.mk.sizeOf_spec]
      rcases h with rfl | h | h
      · omega
      · have := List.sizeOf_lt_of_mem h; omega
      · have := List.sizeOf_lt_of_mem h; omega

@[simp] theorem map_map (f : α → β) (g : β → γ) (s : Shape α) :
    (s.map f).map g = s.map (g ∘ f) := by
  cases s <;> simp [map, Signature.map]

theorem map_congr {f g : α → β} {s : Shape α} (h : ∀ c ∈ s.children, f c = g c) :
    s.map f = s.map g := by
  cases s with
  | function sig =>
      have hret : f sig.ret = g sig.ret := h _ (by simp [children, Signature.children])
      have hparams : sig.params.map f = sig.params.map g :=
        List.map_congr_left fun c hc => h c (by simp [children, Signature.children, hc])
      have hgivens : sig.givens.map f = sig.givens.map g :=
        List.map_congr_left fun c hc => h c (by simp [children, Signature.children, hc])
      simp only [map, Signature.map, hret, hparams, hgivens]
  | trait name subject args =>
      have hsubject : f subject = g subject := h _ (by simp [children])
      have hargs : args.map f = args.map g :=
        List.map_congr_left fun c hc => h c (by simp [children, hc])
      simp only [map, hsubject, hargs]
  | tuple items => exact congrArg Shape.tuple (List.map_congr_left h)
  | product name args => exact congrArg (Shape.product name) (List.map_congr_left h)
  | sum name args => exact congrArg (Shape.sum name) (List.map_congr_left h)
  | _ => simp_all [map, children]

@[simp] theorem map_id (s : Shape α) : s.map id = s := by
  cases s <;> simp [map, Signature.map]

/-- A shape is its head together with its constituents. -/
theorem eq_of_map_eq {f : α → β} {s t : Shape α} (hmap : s.map f = t.map f)
    (hchildren : s.children = t.children) : s = t := by
  cases s <;> cases t <;> simp only [map, reduceCtorEq] at hmap <;>
    simp only [children] at hchildren
  case function.function f₁ f₂ =>
    obtain ⟨r, ps, gs, m, v⟩ := f₁
    obtain ⟨r', ps', gs', m', v'⟩ := f₂
    simp only [Shape.function.injEq, Signature.map, Signature.mk.injEq] at hmap
    simp only [Signature.children, List.cons_append, List.cons.injEq] at hchildren
    obtain ⟨-, hps, -, rfl, rfl⟩ := hmap
    obtain ⟨rfl, hrest⟩ := hchildren
    have hlen : ps.length = ps'.length := by simpa using congrArg List.length hps
    obtain ⟨rfl, rfl⟩ := List.append_inj hrest hlen
    rfl
  all_goals simp_all

@[simp] theorem isVar_map (f : α → β) (s : Shape α) : (s.map f).isVar = s.isVar := by
  cases s <;> rfl

@[simp] theorem isError_map (f : α → β) (s : Shape α) : (s.map f).isError = s.isError := by
  cases s with
  | prim p => cases p <;> rfl
  | _ => rfl

@[simp] theorem isQualified_map (f : α → β) (s : Shape α) :
    (s.map f).isQualified = s.isQualified := by
  cases s <;> rfl

@[simp] theorem varIdent?_map (f : α → β) (s : Shape α) :
    (s.map f).varIdent? = s.varIdent? := by
  cases s <;> rfl

theorem isVar_iff {s : Shape α} : s.isVar = true ↔ ∃ x, s = .var x := by
  cases s <;> simp [isVar]

end Shape

/-- A type unfolded into a finite tree of shapes. -/
inductive TypeTree where
  | mk (shape : Shape TypeTree)

namespace TypeTree

/-- The outermost layer of a tree. -/
def shape : TypeTree → Shape TypeTree
  | .mk s => s

@[simp] theorem shape_mk (s : Shape TypeTree) : (mk s).shape = s := rfl

@[simp] theorem mk_shape (t : TypeTree) : mk t.shape = t := by cases t; rfl

/-- A tree that is a single variable. -/
abbrev var (x : VarIdent) : TypeTree := .mk (.var x)

/-- The tree of a primitive type. -/
abbrev prim (p : Prim) : TypeTree := .mk (.prim p)

/-- The tree of the error type. -/
abbrev error : TypeTree := prim .error

/-- The tree of a tuple; the one without elements is the unit type. -/
def tuple (items : List TypeTree) : TypeTree :=
  if items.isEmpty then prim .unit else .mk (.tuple items)

theorem sizeOf_lt_of_mem_children {s : Shape TypeTree} {c : TypeTree} (h : c ∈ s.children) :
    sizeOf c < sizeOf (mk s) := by
  have := Shape.sizeOf_lt_of_mem_children h
  simp only [mk.sizeOf_spec]; omega

/-- Combine a tree from the leaves up. -/
def fold {α : Type} (f : Shape α → α) : TypeTree → α
  | .mk s => f (s.attach.map fun c => c.1.fold f)
termination_by t => sizeOf t
decreasing_by exact sizeOf_lt_of_mem_children c.2

theorem fold_mk {α : Type} (f : Shape α → α) (s : Shape TypeTree) :
    (mk s).fold f = f (s.map (fold f)) := by
  rw [fold, Shape.map_attach]

/-- Induction over a tree: a property passes from the constituents to the whole. -/
@[elab_as_elim]
theorem induction {P : TypeTree → Prop} (step : ∀ s, (∀ c ∈ s.children, P c) → P (mk s))
    (t : TypeTree) : P t := by
  match t with
  | .mk s => exact step s fun c hc => induction step c
termination_by sizeOf t
decreasing_by exact sizeOf_lt_of_mem_children hc

/-! ## Variables and size -/

/-- A variable occurs in a tree. -/
def Occurs (x : VarIdent) : TypeTree → Prop :=
  fold fun s => s.varIdent? = some x ∨ ∃ p ∈ s.children, p

theorem occurs_mk {x : VarIdent} {s : Shape TypeTree} :
    Occurs x (mk s) ↔ s.varIdent? = some x ∨ ∃ c ∈ s.children, Occurs x c := by
  simp only [Occurs, fold_mk, Shape.varIdent?_map, Shape.children_map, List.mem_map,
    exists_exists_and_eq_and]

@[simp] theorem occurs_var {x y : VarIdent} : Occurs x (var y) ↔ y = x := by
  simp [occurs_mk, Shape.varIdent?, Shape.children]

/-- A tree in which some variable occurs. -/
def Generic (t : TypeTree) : Prop := ∃ x, Occurs x t

/-- Number of layers of a tree. -/
def size : TypeTree → Nat := fold fun s => 1 + s.children.sum

theorem size_mk (s : Shape TypeTree) : size (mk s) = 1 + (s.children.map size).sum := by
  simp only [size, fold_mk, Shape.children_map]

theorem size_lt_of_mem_children {s : Shape TypeTree} {c : TypeTree} (h : c ∈ s.children) :
    c.size < (mk s).size := by
  have := List.single_le_sum (fun _ _ => Nat.zero_le _) _ (List.mem_map_of_mem (f := size) h)
  rw [size_mk]; omega

/-! ## Replacing variables -/

/-- Replace all variables of a tree at once. -/
def subst (σ : VarIdent → TypeTree) : TypeTree → TypeTree :=
  fold fun s => match s with
    | .var x => σ x
    | s => mk s

@[simp] theorem subst_var (σ : VarIdent → TypeTree) (x : VarIdent) : (var x).subst σ = σ x := by
  rw [subst, fold_mk]; rfl

theorem subst_mk {σ : VarIdent → TypeTree} {s : Shape TypeTree} (h : s.isVar = false) :
    (mk s).subst σ = mk (s.map (subst σ)) := by
  rw [subst, fold_mk]
  cases s <;> first | rfl | simp [Shape.isVar] at h

@[simp] theorem subst_prim (σ : VarIdent → TypeTree) (p : Prim) : (prim p).subst σ = prim p :=
  subst_mk rfl

@[simp] theorem subst_tuple (σ : VarIdent → TypeTree) (items : List TypeTree) :
    (tuple items).subst σ = tuple (items.map (subst σ)) := by
  cases items with
  | nil => exact subst_prim σ .unit
  | cons t ts => exact subst_mk rfl

theorem occurs_subst {σ : VarIdent → TypeTree} {y : VarIdent} (t : TypeTree) :
    Occurs y (t.subst σ) ↔ ∃ x, Occurs x t ∧ Occurs y (σ x) := by
  induction t using induction with
  | step s ih =>
    by_cases hv : s.isVar = true
    · obtain ⟨x, rfl⟩ := Shape.isVar_iff.mp hv
      simp
    · have hv : s.isVar = false := by simpa using hv
      have hx : ∀ x, s.varIdent? ≠ some x := by cases s <;> simp_all [Shape.isVar, Shape.varIdent?]
      simp only [subst_mk hv, occurs_mk, Shape.varIdent?_map, hx, false_or, Shape.children_map,
        List.mem_map, exists_exists_and_eq_and]
      constructor
      · rintro ⟨c, hc, h⟩
        obtain ⟨x, hxc, hy⟩ := (ih c hc).mp h
        exact ⟨x, ⟨c, hc, hxc⟩, hy⟩
      · rintro ⟨x, ⟨c, hc, hxc⟩, hy⟩
        exact ⟨c, hc, (ih c hc).mpr ⟨x, hxc, hy⟩⟩

/-- The result depends only on the replacements of variables that occur. -/
theorem subst_congr {σ τ : VarIdent → TypeTree} {t : TypeTree}
    (h : ∀ x, Occurs x t → σ x = τ x) : t.subst σ = t.subst τ := by
  induction t using induction with
  | step s ih =>
    by_cases hv : s.isVar = true
    · obtain ⟨x, rfl⟩ := Shape.isVar_iff.mp hv
      simpa using h x (by simp)
    · have hv : s.isVar = false := by simpa using hv
      rw [subst_mk hv, subst_mk hv]
      refine congrArg mk (Shape.map_congr fun c hc => ih c hc fun x hx => h x ?_)
      exact occurs_mk.mpr (Or.inr ⟨c, hc, hx⟩)

theorem subst_var_eq_self (t : TypeTree) : t.subst var = t := by
  induction t using induction with
  | step s ih =>
    by_cases hv : s.isVar = true
    · obtain ⟨x, rfl⟩ := Shape.isVar_iff.mp hv
      rw [subst_var]
    · have hv : s.isVar = false := by simpa using hv
      rw [subst_mk hv, Shape.map_congr (g := id) ih, Shape.map_id]

/-- Nothing changes when every variable that occurs is kept. -/
theorem subst_eq_self {σ : VarIdent → TypeTree} {t : TypeTree}
    (h : ∀ x, Occurs x t → σ x = var x) : t.subst σ = t := by
  rw [subst_congr h, subst_var_eq_self]

theorem subst_subst (σ τ : VarIdent → TypeTree) (t : TypeTree) :
    (t.subst σ).subst τ = t.subst fun x => (σ x).subst τ := by
  induction t using induction with
  | step s ih =>
    by_cases hv : s.isVar = true
    · obtain ⟨x, rfl⟩ := Shape.isVar_iff.mp hv
      rw [subst_var, subst_var]
    · have hv : s.isVar = false := by simpa using hv
      rw [subst_mk hv, subst_mk (by simpa using hv), subst_mk hv, Shape.map_map]
      exact congrArg mk (Shape.map_congr ih)

/-- The image of a variable is no larger than the image of a tree in which it occurs, and smaller
unless the tree is that variable. -/
theorem size_lt_of_occurs {σ : VarIdent → TypeTree} {x : VarIdent} {t : TypeTree}
    (h : Occurs x t) (hne : t ≠ var x) : (σ x).size < (t.subst σ).size := by
  induction t using induction with
  | step s ih =>
    rcases occurs_mk.mp h with hx | ⟨c, hc, hxc⟩
    · refine absurd ?_ hne
      cases s <;> simp_all [Shape.varIdent?]
    · have hv : s.isVar = false := by
        cases s <;> first | rfl | simp [Shape.children] at hc
      have hlt : (c.subst σ).size < ((mk s).subst σ).size := by
        rw [subst_mk hv]
        exact size_lt_of_mem_children (by
          rw [Shape.children_map]; exact List.mem_map_of_mem hc)
      by_cases hcx : c = var x
      · rw [hcx, subst_var] at hlt
        exact hlt
      · exact Nat.lt_trans (ih c hc hxc hcx) hlt

/-- The replacement of parameters by arguments, on top of a replacement of the other variables. -/
def assign (σ : VarIdent → TypeTree) (params : List VarIdent) (args : List TypeTree)
    (x : VarIdent) : TypeTree :=
  ((params.zip args).lookup x).getD (σ x)

/-- Replacing variables in what parameters were replaced by replaces them in the arguments. -/
theorem subst_assign (σ ρ : VarIdent → TypeTree) (params : List VarIdent) (args : List TypeTree)
    (t : TypeTree) : (t.subst (assign σ params args)).subst ρ =
      t.subst (assign (fun x => (σ x).subst ρ) params (args.map (subst ρ))) := by
  rw [subst_subst]
  refine subst_congr fun x _ => ?_
  unfold assign
  induction params generalizing args with
  | nil => rfl
  | cons y params ih =>
    cases args with
    | nil => rfl
    | cons a args =>
      rw [List.map_cons, List.zip_cons_cons, List.zip_cons_cons, List.lookup_cons, List.lookup_cons]
      by_cases hxy : (x == y) = true
      · rw [hxy]
        rfl
      · rw [Bool.eq_false_iff.mpr hxy]
        exact ih args

/-- Replace one variable. -/
def replace (t : TypeTree) (x : VarIdent) (r : TypeTree) : TypeTree :=
  t.subst (Function.update var x r)

@[simp] theorem replace_var_self (x : VarIdent) (r : TypeTree) : (var x).replace x r = r := by
  simp [replace]

theorem occurs_replace {x y : VarIdent} {r t : TypeTree} (h : Occurs y (t.replace x r)) :
    (Occurs y t ∧ y ≠ x) ∨ (Occurs x t ∧ Occurs y r) := by
  obtain ⟨z, hz, hy⟩ := (occurs_subst t).mp h
  by_cases hzx : z = x
  · subst hzx
    exact Or.inr ⟨hz, by simpa using hy⟩
  · rw [Function.update_of_ne hzx, occurs_var] at hy
    subst hy
    exact Or.inl ⟨hz, hzx⟩

theorem replace_eq_self {x : VarIdent} {r t : TypeTree} (h : ¬ Occurs x t) :
    t.replace x r = t := by
  refine subst_eq_self fun y hy => Function.update_of_ne ?_ _ _
  rintro rfl
  exact h hy

/-- A variable does not survive its replacement by a tree in which it does not occur. -/
theorem not_occurs_replace_self {x : VarIdent} {r t : TypeTree} (h : ¬ Occurs x r) :
    ¬ Occurs x (t.replace x r) := by
  intro hx
  rcases occurs_replace hx with ⟨-, hne⟩ | ⟨-, hr⟩
  · exact hne rfl
  · exact h hr

/-- A substitution that already identifies `x` with `r` absorbs the replacement of `x` by `r`. -/
theorem subst_replace {σ : VarIdent → TypeTree} {x : VarIdent} {r : TypeTree}
    (h : σ x = r.subst σ) (t : TypeTree) : (t.replace x r).subst σ = t.subst σ := by
  rw [replace, subst_subst]
  refine subst_congr fun y _ => ?_
  by_cases hyx : y = x
  · subst hyx
    rw [Function.update_self, h]
  · rw [Function.update_of_ne hyx, subst_var]

/-! ## Properties of all layers -/

/-- Every layer of a tree has a property of shapes, which does not depend on the constituents. -/
def Everywhere (P : Shape Unit → Prop) : TypeTree → Prop :=
  fold fun s => P (s.map fun _ => ()) ∧ ∀ p ∈ s.children, p

theorem everywhere_mk {P : Shape Unit → Prop} {s : Shape TypeTree} :
    Everywhere P (mk s) ↔ P (s.map fun _ => ()) ∧ ∀ c ∈ s.children, Everywhere P c := by
  simp only [Everywhere, fold_mk, Shape.map_map, Shape.children_map, List.forall_mem_map]

theorem Everywhere.subst {P : Shape Unit → Prop} {σ : VarIdent → TypeTree} {t : TypeTree}
    (h : Everywhere P t) (hσ : ∀ x, Occurs x t → Everywhere P (σ x)) :
    Everywhere P (t.subst σ) := by
  induction t using induction with
  | step s ih =>
    by_cases hv : s.isVar = true
    · obtain ⟨x, rfl⟩ := Shape.isVar_iff.mp hv
      rw [subst_var]
      exact hσ x (by simp)
    · obtain ⟨hs, hc⟩ := everywhere_mk.mp h
      rw [subst_mk (by simpa using hv), everywhere_mk, Shape.map_map, Shape.children_map]
      refine ⟨hs, List.forall_mem_map.mpr fun c hmem => ih c hmem (hc c hmem) fun x hx => ?_⟩
      exact hσ x (occurs_mk.mpr (Or.inr ⟨c, hmem, hx⟩))

/-- A property that constituents have when the whole does, and that replacement keeps. -/
structure Inherited (P : TypeTree → Prop) : Prop where
  child : ∀ {t c : TypeTree}, P t → c ∈ t.shape.children → P c
  replace : ∀ {t r : TypeTree} (x : VarIdent), P t → P r → P (t.replace x r)

theorem inherited_everywhere {P : Shape Unit → Prop} (hvar : ∀ x, P (.var x)) :
    Inherited (Everywhere P) where
  child := by
    rintro ⟨s⟩ c ht hc
    exact (everywhere_mk.mp ht).2 c hc
  replace := by
    intro t r x ht hr
    refine ht.subst fun y _ => ?_
    by_cases hyx : y = x
    · rw [hyx, Function.update_self]
      exact hr
    · rw [Function.update_of_ne hyx]
      exact everywhere_mk.mpr ⟨hvar y, by simp [Shape.children]⟩

/-- Having all variables among given ones. -/
theorem inherited_occurs (V : VarIdent → Prop) : Inherited fun t => ∀ y, Occurs y t → V y where
  child := by
    rintro ⟨s⟩ c ht hc y hy
    exact ht y (occurs_mk.mpr (Or.inr ⟨c, hc, hy⟩))
  replace := by
    intro t r x ht hr y hy
    rcases occurs_replace hy with ⟨hy, -⟩ | ⟨-, hy⟩
    · exact ht y hy
    · exact hr y hy

/-- A tree without qualifiers. -/
def Unqualified : TypeTree → Prop := Everywhere (·.isQualified = false)

theorem inherited_unqualified : Inherited Unqualified := inherited_everywhere fun _ => rfl

theorem Unqualified.isQualified {s : Shape TypeTree} (h : Unqualified (mk s)) :
    s.isQualified = false := by
  have := (everywhere_mk.mp h).1
  rwa [Shape.isQualified_map] at this

/-- A tree in which the error type does not occur. -/
def Faultless : TypeTree → Prop := Everywhere (·.isError = false)

theorem faultless_mk {s : Shape TypeTree} :
    Faultless (mk s) ↔ s.isError = false ∧ ∀ c ∈ s.children, Faultless c := by
  rw [Faultless, everywhere_mk, Shape.isError_map]

@[simp] theorem faultless_var (x : VarIdent) : Faultless (var x) :=
  faultless_mk.mpr ⟨rfl, by simp [Shape.children]⟩

theorem faultless_prim {p : Prim} : Faultless (prim p) ↔ p ≠ .error := by
  refine faultless_mk.trans ⟨fun h hp => ?_, fun hp => ⟨?_, by simp [Shape.children]⟩⟩
  · subst hp
    cases h.1
  · cases p <;> first | rfl | exact absurd rfl hp

theorem faultless_tuple {items : List TypeTree} :
    Faultless (tuple items) ↔ ∀ t ∈ items, Faultless t := by
  unfold tuple
  split
  · next hnil =>
    obtain rfl := List.isEmpty_iff.mp hnil
    exact ⟨fun _ => by simp, fun _ => faultless_prim.mpr (by decide)⟩
  · rw [faultless_mk]
    exact ⟨fun h => h.2, fun h => ⟨rfl, h⟩⟩

theorem inherited_faultless : Inherited Faultless := inherited_everywhere fun _ => rfl

/-- Replacing parameters by arguments does not bring the error type in. -/
theorem Faultless.assign {t : TypeTree} (h : t.Faultless) (params : List VarIdent)
    {args : List TypeTree} (hargs : ∀ a ∈ args, a.Faultless) :
    (t.subst (assign var params args)).Faultless := by
  refine Everywhere.subst h fun x _ => ?_
  unfold TypeTree.assign
  cases hl : (params.zip args).lookup x with
  | none => exact faultless_var x
  | some a =>
    obtain ⟨l₁, l₂, hl, -⟩ := List.lookup_eq_some_iff.mp hl
    have hmem : (x, a) ∈ params.zip args := by rw [hl]; simp
    exact hargs a (List.of_mem_zip hmem).2

/-- The tree of a function type. -/
def IsFunction (t : TypeTree) : Prop := ∃ sig, t = mk (.function sig)

theorem IsFunction.subst {t : TypeTree} (h : t.IsFunction) (σ : VarIdent → TypeTree) :
    (t.subst σ).IsFunction := by
  obtain ⟨sig, rfl⟩ := h
  exact ⟨sig.map (TypeTree.subst σ), subst_mk rfl⟩

end TypeTree

end ConstraintTyping
