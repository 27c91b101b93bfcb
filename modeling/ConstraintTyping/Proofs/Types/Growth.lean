import ConstraintTyping.Types.Substitute
import Mathlib.Data.List.Forall2
import Mathlib.Logic.Relation
import Mathlib.Order.Basic

/-!
# Growth of a store

A store only grows: types keep their numbers and everything known about them, and new ones are put
behind them.  `st ≤ st'` says that `st'` has all types of `st`.

`Store.Step` lists the ways in which a store is changed from outside: a type is built, a type is
qualified, or the declarations change.  A store is reachable when such steps lead to it from the
store that holds the primitives alone.  `StoreM.Yields` says of a computation that it goes from a
store by such steps and what its result is then; it is the form of the rules for computations that
build types.
-/

namespace ConstraintTyping

/-! ## Related lists -/

/-- Every element on the right of two related lists has a partner on the left. -/
theorem exists_mem_of_forall₂ {α β : Type} {R : α → β → Prop} {xs : List α} {ys : List β}
    (h : List.Forall₂ R xs ys) {y : β} (hy : y ∈ ys) : ∃ x ∈ xs, R x y := by
  induction h with
  | nil => cases hy
  | cons hxy _ ih =>
    rcases List.mem_cons.mp hy with rfl | hy
    · exact ⟨_, List.mem_cons_self, hxy⟩
    · obtain ⟨x, hx, hR⟩ := ih hy
      exact ⟨x, List.mem_cons_of_mem _ hx, hR⟩

theorem map_eq_of_forall₂ {α β γ : Type} {f : α → γ} {g : β → γ} {xs : List α} {ys : List β}
    (h : List.Forall₂ (fun x y => g y = f x) xs ys) : ys.map g = xs.map f := by
  induction h with
  | nil => rfl
  | cons hxy _ ih => rw [List.map_cons, List.map_cons, hxy, ih]

/-- Two lists are gone through with the same steps. -/
theorem forM_eq_of_forall₂ {α β : Type} {μ : Type → Type} [Monad μ] {f : α → μ PUnit}
    {g : β → μ PUnit} {xs : List α} {ys : List β} (h : List.Forall₂ (fun x y => g y = f x) xs ys) :
    ys.forM g = xs.forM f := by
  induction h with
  | nil => rfl
  | cons hxy _ ih => exact congrArg₂ (fun x rest => x >>= fun _ => rest) hxy ih

theorem mapM_eq_of_forall₂ {α β γ : Type} {μ : Type → Type} [Monad μ] [LawfulMonad μ] {f : α → μ γ}
    {g : β → μ γ} {xs : List α} {ys : List β} (h : List.Forall₂ (fun x y => g y = f x) xs ys) :
    ys.mapM g = xs.mapM f := by
  induction h with
  | nil => rfl
  | cons hxy _ ih => rw [List.mapM_cons, List.mapM_cons, hxy, ih]

/-- A relation between two lists is replaced by another one, element by element. -/
theorem forall₂_of_mem {α β : Type} {R S : α → β → Prop} {xs : List α} {ys : List β}
    (h : List.Forall₂ R xs ys) (hRS : ∀ x ∈ xs, ∀ y, R x y → S x y) : List.Forall₂ S xs ys := by
  induction h with
  | nil => exact .nil
  | cons hxy _ ih =>
    exact .cons (hRS _ List.mem_cons_self _ hxy) (ih fun x hx => hRS x (List.mem_cons_of_mem _ hx))

/-! ## Running computations -/

section Run

variable {σ α β : Type}

@[simp] theorem StateM.bind_apply (act : StateM σ α) (f : α → StateM σ β) (s : σ) :
    (act >>= f) s = f (act s).1 (act s).2 := rfl

@[simp] theorem StateM.pure_apply (a : α) (s : σ) : (pure a : StateM σ α) s = (a, s) := rfl

@[simp] theorem StateM.map_apply (f : α → β) (act : StateM σ α) (s : σ) :
    (f <$> act) s = (f (act s).1, (act s).2) := rfl

@[simp] theorem StateM.get_apply (s : σ) : (get : StateM σ σ) s = (s, s) := rfl

@[simp] theorem StateM.modify_apply (f : σ → σ) (s : σ) :
    (modify f : StateM σ Unit) s = ((), f s) := rfl

end Run

namespace Store

/-! ## The order on stores -/

/-- A store is below another when the other has all of its types under the same numbers. -/
instance : Preorder Store where
  le st st' := ∀ (i : TypeId) (n : Node), st.table.node? i = some n →
    st'.table.node? i = some n
  le_refl _ _ _ h := h
  le_trans _ _ _ h₁ h₂ i n h := h₂ i n (h₁ i n h)

variable {st st' : Store} {ty : TypeId}

theorem exists_node (h : ty < st.size) : ∃ n, st.table.node? ty = some n :=
  TypeData.exists_node? h

theorem lt_size_of_node {n : Node} (h : st.table.node? ty = some n) : ty < st.size :=
  TypeData.lt_size_of_node? h

theorem shape_of_node {n : Node} (h : st.table.node? ty = some n) : st.shape ty = n.shape := by
  simp [shape, TypeTable.shape, h]

theorem flags_of_node {n : Node} (h : st.table.node? ty = some n) : st.flags ty = n.flags :=
  TypeData.flagsOf_of_node? h

theorem weight_of_node {n : Node} (h : st.table.node? ty = some n) : st.weight ty = n.weight :=
  TypeData.weightOf_of_node? h

theorem lt_size_of_le (h : st ≤ st') (hty : ty < st.size) : ty < st'.size := by
  obtain ⟨n, hn⟩ := exists_node hty
  exact lt_size_of_node (h ty n hn)

theorem size_le_of_le (h : st ≤ st') : st.size ≤ st'.size := by
  by_contra hlt
  exact absurd (lt_size_of_le h (Nat.lt_of_not_le hlt)) (Nat.lt_irrefl _)

theorem node_of_le (h : st ≤ st') (hty : ty < st.size) :
    st'.table.node? ty = st.table.node? ty := by
  obtain ⟨n, hn⟩ := exists_node hty
  rw [hn, h ty n hn]

theorem shape_of_le (h : st ≤ st') (hty : ty < st.size) : st'.shape ty = st.shape ty := by
  simp only [shape, TypeTable.shape, node_of_le h hty]

theorem children_of_le (h : st ≤ st') (hty : ty < st.size) : st'.children ty = st.children ty :=
  congrArg Shape.children (shape_of_le h hty)

theorem isVar_of_le (h : st ≤ st') (hty : ty < st.size) : st'.isVar ty = st.isVar ty :=
  congrArg Shape.isVar (shape_of_le h hty)

theorem flags_of_le (h : st ≤ st') (hty : ty < st.size) : st'.flags ty = st.flags ty := by
  obtain ⟨n, hn⟩ := exists_node hty
  rw [flags_of_node hn, flags_of_node (h ty n hn)]

theorem weight_of_le (h : st ≤ st') (hty : ty < st.size) : st'.weight ty = st.weight ty := by
  obtain ⟨n, hn⟩ := exists_node hty
  rw [weight_of_node hn, weight_of_node (h ty n hn)]

theorem isGeneric_of_le (h : st ≤ st') (hty : ty < st.size) :
    st'.isGeneric ty = st.isGeneric ty := by
  rw [isGeneric, flags_of_le h hty, isGeneric]

theorem hasError_of_le (h : st ≤ st') (hty : ty < st.size) :
    st'.hasError ty = st.hasError ty := by
  rw [hasError, flags_of_le h hty, hasError]

/-- Constituents of a type of the store are types of the store. -/
theorem lt_size_of_mem_children {c : TypeId} (hty : ty < st.size) (hc : c ∈ st.children ty) :
    c < st.size :=
  Nat.lt_trans (lt_of_mem_children hc) hty

/-- What does not read as the error type is a type of its store. -/
theorem lt_size_of_shape_ne (h : st.shape ty ≠ .prim .error) : ty < st.size := by
  by_contra hlt
  have hnone : st.table.node? ty = none := TypeData.node?_eq_none (Nat.le_of_not_lt hlt)
  exact h (by simp [shape, TypeTable.shape, hnone])

/-- A variable is a type of its store. -/
theorem lt_size_of_isVar (h : st.isVar ty = true) : ty < st.size := by
  refine lt_size_of_shape_ne fun hshape => ?_
  rw [isVar, hshape] at h
  cases h

theorem lt_size_of_prim (p : Prim) : TypeId.ofPrim p < st.size := by
  obtain ⟨n, hn, -⟩ := st.table.lawful.prim_at p
  exact lt_size_of_node hn

theorem shape_prim (p : Prim) : st.shape (TypeId.ofPrim p) = .prim p := by
  obtain ⟨n, hn, hs⟩ := st.table.lawful.prim_at p
  rw [shape_of_node hn, hs]

/-- Two types of one shape are one type. -/
theorem eq_of_shape_eq {a b : TypeId} (ha : a < st.size) (hb : b < st.size)
    (h : st.shape a = st.shape b) : a = b := by
  obtain ⟨n, hn⟩ := exists_node ha
  obtain ⟨m, hm⟩ := exists_node hb
  rw [shape_of_node hn, shape_of_node hm] at h
  have h₁ := st.table.lawful.find?_iff.mpr ⟨n, hn, h⟩
  have h₂ := st.table.lawful.find?_iff.mpr ⟨m, hm, rfl⟩
  exact Option.some.inj (h₁.symm.trans h₂)

/-! ## The type under the qualifiers -/

theorem bare_of_qualified {q : Qualifier} {base : TypeId} (h : st.shape ty = .qualified q base) :
    st.bare ty = st.bare base := by
  have h : st.table.shape ty = .qualified q base := h
  rw [bare, TypeTable.bare]
  split
  · next q' base' h' =>
    rw [h] at h'
    obtain ⟨-, rfl⟩ := Shape.qualified.inj h'
    rfl
  · next hne => exact absurd h (hne q base)

theorem bare_of_not_qualified (h : (st.shape ty).isQualified = false) : st.bare ty = ty := by
  rw [bare, TypeTable.bare]
  split
  · next q base h' =>
    have h' : st.shape ty = .qualified q base := h'
    simp [h', Shape.isQualified] at h
  · rfl

theorem isQualified_shape_bare (st : Store) (ty : TypeId) :
    (st.shape (st.bare ty)).isQualified = false :=
  st.table.isQualified_shape_bare ty

@[simp] theorem bare_bare (st : Store) (ty : TypeId) : st.bare (st.bare ty) = st.bare ty :=
  bare_of_not_qualified (isQualified_shape_bare st ty)

theorem bare_lt_size (h : ty < st.size) : st.bare ty < st.size :=
  Nat.lt_of_le_of_lt (st.table.bare_le ty) h

theorem isQualified_iff {α : Type} {s : Shape α} :
    s.isQualified = true ↔ ∃ q base, s = .qualified q base := by
  cases s <;> simp [Shape.isQualified]

/-- The base of a qualified type is a type of the store. -/
theorem lt_of_qualified {q : Qualifier} {base : TypeId} (h : st.shape ty = .qualified q base) :
    base < ty := by
  have hmem : base ∈ st.children ty := by
    show base ∈ (st.shape ty).children
    rw [h]; simp [Shape.children]
  exact lt_of_mem_children hmem

theorem bare_of_le (h : st ≤ st') (hty : ty < st.size) : st'.bare ty = st.bare ty := by
  induction ty using Nat.strongRecOn with
  | ind ty ih =>
    by_cases hq : (st.shape ty).isQualified = true
    · obtain ⟨q, base, hs⟩ := isQualified_iff.mp hq
      have hlt := lt_of_qualified hs
      rw [bare_of_qualified hs, bare_of_qualified ((shape_of_le h hty).trans hs)]
      exact ih base hlt (Nat.lt_trans hlt hty)
    · have hq : (st.shape ty).isQualified = false := by simpa using hq
      rw [bare_of_not_qualified hq, bare_of_not_qualified (by rw [shape_of_le h hty, hq])]

/-- The constituents of a type that is not itself qualified carry no qualifiers. -/
theorem bare_of_mem_children {c : TypeId} (hty : ty < st.size)
    (hq : (st.shape ty).isQualified = false) (hc : c ∈ st.children ty) : st.bare c = c := by
  obtain ⟨n, hn⟩ := exists_node hty
  obtain ⟨m, hm⟩ := exists_node (lt_size_of_mem_children hty hc)
  have hc : c ∈ n.shape.children := by
    have : st.children ty = n.shape.children := congrArg Shape.children (shape_of_node hn)
    rwa [this] at hc
  rw [shape_of_node hn] at hq
  have := st.table.lawful.bare_child hn hq hc hm
  exact bare_of_not_qualified (by rw [shape_of_node hm, this])

/-! ## Steps -/

/-- One way to change a store.  Everything that the library does to a store is a sequence of such
steps. -/
inductive Step (st : Store) : Store → Prop
  /-- Build a type of a shape that is not a qualifier. -/
  | build (s : Shape TypeId) (hs : s.isQualified = false) : Step st (StoreM.intern s st).2
  /-- Qualify a type. -/
  | qualify (q : Qualifier) (base : TypeId) : Step st (StoreM.qualify q base st).2
  /-- Change what is declared. -/
  | declare (nominals : Nominals) : Step st { st with nominals }

/-- Any number of steps. -/
abbrev Steps : Store → Store → Prop := Relation.ReflTransGen Step

/-- A store that steps lead to from the store of the primitives. -/
def Reachable (st : Store) : Prop := Steps Store.new st

end Store

/-! ## Building one type -/

/-- Interning finds the shape, appends it, or refuses a shape over numbers beyond the table. -/
theorem TypeTable.intern_cases (t : TypeTable) (s : Shape TypeId) :
    (∃ id, t.find? (t.key s) = some id ∧ t.intern s = (id, t)) ∨
    ((∀ c ∈ (t.key s).children, c < t.size) ∧ (t.intern s).1 = t.size ∧
      (t.intern s).2.toTypeData = t.toTypeData.push (t.key s)) ∨
    ((¬ ∀ c ∈ (t.key s).children, c < t.size) ∧ t.intern s = (TypeId.error, t)) := by
  unfold intern
  split
  · next id h => exact Or.inl ⟨id, h, rfl⟩
  · split
    · next below => exact Or.inr (Or.inl ⟨below, rfl, rfl⟩)
    · next below => exact Or.inr (Or.inr ⟨below, rfl⟩)

namespace StoreM

open Store

variable {st : Store}

theorem intern_eq (s : Shape TypeId) (st : Store) :
    intern s st = ((st.table.intern s).1, ⟨(st.table.intern s).2, st.nominals⟩) := rfl

@[simp] theorem intern_nominals (s : Shape TypeId) (st : Store) :
    (intern s st).2.nominals = st.nominals := rfl

theorem intern_le (s : Shape TypeId) (st : Store) : st ≤ (intern s st).2 := by
  intro i n hn
  show (st.table.intern s).2.node? i = some n
  rcases st.table.intern_cases s with ⟨id, -, h⟩ | ⟨-, -, h⟩ | ⟨-, h⟩
  · rw [h]; exact hn
  · have hlt : i < st.table.items.size := lt_size_of_node hn
    rw [h, st.table.lawful.node?_push, if_neg (Nat.ne_of_lt hlt)]
    exact hn
  · rw [h]; exact hn

/-- The type of a shape over types of the store is a type of the grown store and has that shape,
its constituents stripped of their qualifiers. -/
theorem intern_spec {s : Shape TypeId} (hs : ∀ c ∈ s.children, c < st.size) :
    (intern s st).1 < (intern s st).2.size ∧
      (intern s st).2.shape (intern s st).1 = st.table.key s := by
  have hkey : ∀ c ∈ (st.table.key s).children, c < st.size := by
    intro c hc
    unfold TypeTable.key at hc
    split at hc
    · exact hs c hc
    · rw [Shape.children_map, List.mem_map] at hc
      obtain ⟨d, hd, rfl⟩ := hc
      exact bare_lt_size (hs d hd)
  rw [intern_eq]
  rcases st.table.intern_cases s with ⟨id, hid, h⟩ | ⟨-, h₁, h₂⟩ | ⟨hne, -⟩
  · obtain ⟨n, hn, hns⟩ := st.table.lawful.find?_iff.mp hid
    rw [h]
    exact ⟨lt_size_of_node hn, (shape_of_node hn).trans hns⟩
  · have hnode : (st.table.intern s).2.node? (st.table.intern s).1 =
        some (Node.ofShape st.table.toTypeData (st.table.key s)) := by
      rw [h₁, h₂, st.table.lawful.node?_push]
      exact if_pos rfl
    have hnode : (intern s st).2.table.node? (intern s st).1 =
        some (Node.ofShape st.table.toTypeData (st.table.key s)) := hnode
    exact ⟨lt_size_of_node hnode, shape_of_node hnode⟩
  · exact absurd hkey hne

theorem intern_lt_size (s : Shape TypeId) (st : Store) :
    (intern s st).1 < (intern s st).2.size := by
  rw [intern_eq]
  rcases st.table.intern_cases s with ⟨id, hid, h⟩ | ⟨-, h₁, h₂⟩ | ⟨-, h⟩
  · obtain ⟨n, hn, -⟩ := st.table.lawful.find?_iff.mp hid
    rw [h]
    exact lt_size_of_node hn
  · show (st.table.intern s).1 < (st.table.intern s).2.items.size
    rw [h₁, h₂, TypeData.items_push, Array.size_push]
    exact Nat.lt_succ_self _
  · rw [h]
    exact lt_size_of_prim .error

/-! ## Qualifying a type -/

/-- A qualifier on top of a type of the store: a type of the grown store over the same bare type. -/
theorem wrap_spec {base : TypeId} (q : Qualifier) (hbase : base < st.size) :
    (wrap q base st).2.shape (wrap q base st).1 = .qualified q base ∧
      (wrap q base st).1 < (wrap q base st).2.size ∧
      (wrap q base st).2.bare (wrap q base st).1 = st.bare base := by
  have hs : ∀ c ∈ (Shape.qualified q base).children, c < st.size := by
    simpa [Shape.children] using hbase
  obtain ⟨hlt, hshape⟩ := intern_spec hs
  have hshape : (wrap q base st).2.shape (wrap q base st).1 = .qualified q base := hshape
  refine ⟨hshape, hlt, ?_⟩
  rw [bare_of_qualified hshape]
  exact bare_of_le (intern_le _ st) hbase

theorem wraps_spec (qs : List Qualifier) {base : TypeId} {st : Store} (hbase : base < st.size) :
    let r := qs.foldlM (fun inner q => wrap q inner) base st
    st ≤ r.2 ∧ r.1 < r.2.size ∧ r.2.bare r.1 = st.bare base := by
  induction qs generalizing base st with
  | nil => exact ⟨le_rfl, hbase, rfl⟩
  | cons q qs ih =>
    obtain ⟨-, hlt, hbare⟩ := wrap_spec q hbase
    obtain ⟨hle', hlt', hbare'⟩ := ih hlt
    rw [List.foldlM_cons]
    exact ⟨le_trans (intern_le _ st) hle', hlt', hbare'.trans hbare⟩

theorem qualify_eq (q : Qualifier) (base : TypeId) (st : Store) :
    qualify q base st =
      (if (st.qualifiers base).contains q then pure base
      else if q = .constant && (st.qualifiers base).contains .mutable then pure base
      else if q = .mutable && (st.qualifiers base).contains .constant then
        ((st.qualifiers base).reverse.filter (· ≠ .constant)).foldlM
          (fun inner k => wrap k inner) (st.bare base) >>= wrap .mutable
      else wrap q base) st := rfl

/-- What qualifying a type can do: nothing, put the qualifier on top, or build the chain anew with
`mut` in the place of `const`. -/
theorem qualify_cases (q : Qualifier) (base : TypeId) (st : Store) :
    ((q ∈ st.qualifiers base ∨ (q = .constant ∧ .mutable ∈ st.qualifiers base)) ∧
      qualify q base st = (base, st)) ∨
    ((q = .mutable ∧ q ∉ st.qualifiers base ∧ .constant ∈ st.qualifiers base) ∧
      qualify q base st =
        (((st.qualifiers base).reverse.filter (· ≠ .constant)).foldlM
          (fun inner k => wrap k inner) (st.bare base) >>= wrap .mutable) st) ∨
    ((q ∉ st.qualifiers base ∧ ¬ (q = .constant ∧ .mutable ∈ st.qualifiers base) ∧
        ¬ (q = .mutable ∧ .constant ∈ st.qualifiers base)) ∧
      qualify q base st = wrap q base st) := by
  rw [qualify_eq]
  simp only [List.contains_iff_mem, Bool.and_eq_true, decide_eq_true_eq]
  by_cases h₁ : q ∈ st.qualifiers base
  · exact Or.inl ⟨Or.inl h₁, by rw [if_pos h₁]; rfl⟩
  by_cases h₂ : q = .constant ∧ .mutable ∈ st.qualifiers base
  · exact Or.inl ⟨Or.inr h₂, by rw [if_neg h₁, if_pos h₂]; rfl⟩
  by_cases h₃ : q = .mutable ∧ .constant ∈ st.qualifiers base
  · refine Or.inr (Or.inl ⟨⟨h₃.1, h₁, h₃.2⟩, ?_⟩)
    rw [if_neg h₁, if_neg h₂, if_pos h₃]
  · refine Or.inr (Or.inr ⟨⟨h₁, h₂, h₃⟩, ?_⟩)
    rw [if_neg h₁, if_neg h₂, if_neg h₃]

/-- Qualifying a type of the store gives a type of the grown store over the same bare type. -/
theorem qualify_spec (q : Qualifier) {base : TypeId} (hbase : base < st.size) :
    st ≤ (qualify q base st).2 ∧ (qualify q base st).1 < (qualify q base st).2.size ∧
      (qualify q base st).2.bare (qualify q base st).1 = st.bare base := by
  rcases qualify_cases q base st with ⟨-, h⟩ | ⟨-, h⟩ | ⟨-, h⟩
  · rw [h]
    exact ⟨le_rfl, hbase, rfl⟩
  · obtain ⟨hle, hlt, hbare⟩ := wraps_spec
      ((st.qualifiers base).reverse.filter (· ≠ .constant)) (bare_lt_size hbase)
    obtain ⟨-, hlt', hbare'⟩ := wrap_spec .mutable hlt
    rw [h, StateM.bind_apply]
    exact ⟨le_trans hle (intern_le _ _), hlt', by rw [hbare', hbare, bare_bare]⟩
  · obtain ⟨-, hlt, hbare⟩ := wrap_spec q hbase
    rw [h]
    exact ⟨intern_le _ st, hlt, hbare⟩

/-- What putting single qualifiers on keeps, qualifying keeps, whatever number it is given. -/
theorem qualify_keeps {P : Store → Prop}
    (hwrap : ∀ (q : Qualifier) (base : TypeId) (st : Store), P st → P (wrap q base st).2)
    {q : Qualifier} {base : TypeId} {st : Store} (h : P st) : P (qualify q base st).2 := by
  have hwraps : ∀ (qs : List Qualifier) (inner : TypeId) (st : Store), P st →
      P (qs.foldlM (fun inner k => wrap k inner) inner st).2 := by
    intro qs
    induction qs with
    | nil => exact fun _ _ h => h
    | cons k qs ih =>
      intro inner st h
      rw [List.foldlM_cons]
      exact ih _ _ (hwrap k inner st h)
  rcases qualify_cases q base st with ⟨-, heq⟩ | ⟨-, heq⟩ | ⟨-, heq⟩
  · rw [heq]
    exact h
  · rw [heq, StateM.bind_apply]
    exact hwrap _ _ _ (hwraps _ _ _ h)
  · rw [heq]
    exact hwrap q base st h

theorem qualify_le (q : Qualifier) (base : TypeId) (st : Store) : st ≤ (qualify q base st).2 :=
  qualify_keeps (P := (st ≤ ·)) (fun _ _ st' h => le_trans h (intern_le _ st')) le_rfl

theorem qualify_nominals (q : Qualifier) (base : TypeId) (st : Store) :
    (qualify q base st).2.nominals = st.nominals :=
  qualify_keeps (P := fun st' => st'.nominals = st.nominals) (fun _ _ _ h => h) rfl

end StoreM

namespace Store

variable {st st' : Store}

theorem Step.le (h : Step st st') : st ≤ st' := by
  cases h with
  | build s hs => exact StoreM.intern_le s st
  | qualify q base => exact StoreM.qualify_le q base st
  | declare nominals => exact fun _ _ h => h

theorem Steps.le (h : Steps st st') : st ≤ st' := by
  induction h with
  | refl => exact le_rfl
  | tail _ hstep ih => exact le_trans ih hstep.le

theorem Reachable.steps (h : st.Reachable) (hs : Steps st st') : st'.Reachable := h.trans hs

end Store

/-! ## Rules for computations -/

namespace StoreM

open Store

variable {α β γ : Type} {st : Store}

/-- A computation goes on from `st` by steps, and its result has the property `Q` in the store that
it ends in. -/
def Yields (act : StoreM α) (st : Store) (Q : α → Store → Prop) : Prop :=
  Steps st (act st).2 ∧ Q (act st).1 (act st).2

theorem Yields.steps {act : StoreM α} {Q : α → Store → Prop} (h : act.Yields st Q) :
    Steps st (act st).2 := h.1

theorem Yields.result {act : StoreM α} {Q : α → Store → Prop} (h : act.Yields st Q) :
    Q (act st).1 (act st).2 := h.2

theorem Yields.mono {act : StoreM α} {Q R : α → Store → Prop} (h : act.Yields st Q)
    (hQR : ∀ a st', Steps st st' → Q a st' → R a st') : act.Yields st R :=
  ⟨h.1, hQR _ _ h.1 h.2⟩

theorem yields_pure {a : α} {Q : α → Store → Prop} (h : Q a st) :
    (pure a : StoreM α).Yields st Q :=
  ⟨.refl, h⟩

theorem Yields.bind {act : StoreM α} {f : α → StoreM β} {Q : α → Store → Prop}
    {R : β → Store → Prop} (hact : act.Yields st Q)
    (hf : ∀ a st', Steps st st' → Q a st' → (f a).Yields st' R) : (act >>= f).Yields st R := by
  obtain ⟨hs, hr⟩ := hf _ _ hact.1 hact.2
  exact ⟨hact.1.trans hs, hr⟩

theorem yields_get_bind {f : Store → StoreM β} {R : β → Store → Prop} (h : (f st).Yields st R) :
    (get >>= f).Yields st R := h

/-- A loop over a list: what each round yields holds of all rounds at the end, provided that growth
does not spoil it. -/
theorem yields_mapM {f : α → StoreM β} {P : α → β → Store → Prop} {xs : List α}
    (stable : ∀ x y st₁ st₂, Steps st₁ st₂ → P x y st₁ → P x y st₂)
    (hf : ∀ x ∈ xs, ∀ st', Steps st st' → (f x).Yields st' (P x)) :
    (xs.mapM f).Yields st fun ys st' => List.Forall₂ (fun x y => P x y st') xs ys := by
  induction xs generalizing st with
  | nil => exact yields_pure .nil
  | cons x xs ih =>
    rw [List.mapM_cons]
    refine (hf x List.mem_cons_self st .refl).bind fun y st₁ h₁ hy => ?_
    have hrest := ih fun z hz st' (hs : Steps st₁ st') =>
      hf z (List.mem_cons_of_mem x hz) st' (h₁.trans hs)
    exact hrest.bind fun ys st₂ h₂ hys => yields_pure (.cons (stable _ _ _ _ h₂ hy) hys)

/-- Interning a shape that is not a qualifier is a step. -/
theorem yields_intern {s : Shape TypeId} (hq : s.isQualified = false)
    (hs : ∀ c ∈ s.children, c < st.size) :
    (intern s).Yields st fun ty st' => ty < st'.size ∧ st'.shape ty = s.map st.bare := by
  refine ⟨.single (.build s hq), (intern_spec hs).1, ?_⟩
  rw [(intern_spec hs).2, TypeTable.key, if_neg (by simp [hq])]
  rfl

theorem yields_qualify (q : Qualifier) {base : TypeId} (hbase : base < st.size) :
    (qualify q base).Yields st fun ty st' => ty < st'.size ∧ st'.bare ty = st.bare base :=
  ⟨.single (.qualify q base), (qualify_spec q hbase).2⟩

end StoreM

end ConstraintTyping
