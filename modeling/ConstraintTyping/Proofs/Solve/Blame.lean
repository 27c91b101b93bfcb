import ConstraintTyping.Proofs.Solve.UnifySound
import ConstraintTyping.Proofs.Types.Facts

/-!
# A failure names a real place

Unification fails at two types that stand inside the two types it was given, at the same place, when
both are read through the bindings that come with the failure.  A place is a path of constituents
through types that are built as the same, from the outermost layer inwards.  Every pair that waits
stands at such a place, and a binding moves the whole and the part alike.
-/

namespace ConstraintTyping

/-- Where a constituent stands in one layer of a type. -/
inductive Place where
  /-- The result of a function. -/
  | ret
  /-- A parameter of a function. -/
  | param (i : Nat)
  /-- A constituent of another type. -/
  | part (i : Nat)
deriving DecidableEq, Repr

namespace Shape

variable {α β : Type} {s t : Shape α} {c : α} {place : Place}

/-- The constituent at a place.  The constraints of a function have none, and what a qualifier is
added to is no constituent in this sense. -/
def constituent? : Shape α → Place → Option α
  | .function sig, .ret => some sig.ret
  | .function sig, .param i => sig.params[i]?
  | .function _, .part _ | .qualified _ _, _ => none
  | s, .part i => s.children[i]?
  | _, _ => none

theorem constituent?_map (f : α → β) (s : Shape α) (place : Place) :
    (s.map f).constituent? place = (s.constituent? place).map f := by
  have part : ∀ i : Nat, (s.map f).children[i]? = s.children[i]?.map f := fun i => by
    rw [children_map, List.getElem?_map]
  cases s <;> cases place <;> first | rfl | exact part _ | exact List.getElem?_map

theorem mem_children_of_constituent? (h : s.constituent? place = some c) : c ∈ s.children := by
  cases s <;> cases place <;> simp only [constituent?, reduceCtorEq] at h
  case function.ret sig =>
    obtain rfl := Option.some.inj h
    simp [children, Signature.children]
  case function.param sig i =>
    simp [children, Signature.children, List.mem_of_getElem? h]
  all_goals exact List.mem_of_getElem? h

theorem SameHead.kind_eq (h : s.SameHead t) : s.kind = t.kind := by
  cases s <;> cases t <;> first | rfl | cases h

/-- Constituents that are compared stand at the same place. -/
theorem exists_place_of_mem_compared {p : α × α} (hh : s.SameHead t) (h : p ∈ s.compared t) :
    ∃ place, s.constituent? place = some p.1 ∧ t.constituent? place = some p.2 := by
  have key : ∀ {xs ys : List α}, p ∈ xs.zip ys →
      ∃ i : Nat, xs[i]? = some p.1 ∧ ys[i]? = some p.2 := by
    intro xs ys hp
    obtain ⟨i, hi⟩ := List.mem_iff_getElem?.mp hp
    exact ⟨i, List.getElem?_zip_eq_some.mp hi⟩
  cases s <;> cases t <;> simp only [SameHead] at hh
  case function.function f g =>
    simp only [compared, List.mem_append, List.mem_singleton] at h
    rcases h with h | rfl
    · obtain ⟨i, hi⟩ := key h
      exact ⟨.param i, hi⟩
    · exact ⟨.ret, rfl, rfl⟩
  all_goals
    obtain ⟨i, hi⟩ := key h
    exact ⟨.part i, hi⟩

/-- The number of constituents of a given sort, for a shape that has such. -/
def arity? : ArityKind → Shape α → Option Nat
  | .tuple, .tuple items => some items.length
  | .function, .function sig => some sig.params.length
  | .typeArgs, .product _ args | .typeArgs, .sum _ args | .typeArgs, .trait _ _ args =>
    some args.length
  | _, _ => none

theorem arity?_map (kind : ArityKind) (f : α → β) (s : Shape α) :
    (s.map f).arity? kind = s.arity? kind := by
  cases kind <;> cases s <;> simp [arity?, map, Signature.map]

/-- Counts that are to blame are those of the two shapes, and they differ. -/
theorem arity?_of_counts? {m n : Nat} {kind : ArityKind} (hh : ¬ s.SameHead t)
    (h : s.counts? t = some (m, n, kind)) :
    m ≠ n ∧ s.arity? kind = some m ∧ t.arity? kind = some n := by
  have hsome : ∀ {m' n' : Nat} {kind' : ArityKind}, some (m', n', kind') = some (m, n, kind) →
      m' = m ∧ n' = n ∧ kind' = kind := fun h => by simpa using h
  cases s <;> cases t <;> simp only [counts?, reduceCtorEq] at h
  case tuple.tuple =>
    obtain ⟨rfl, rfl, rfl⟩ := hsome h
    exact ⟨hh, rfl, rfl⟩
  case function.function =>
    split_ifs at h with heq
    obtain ⟨rfl, rfl, rfl⟩ := hsome h
    exact ⟨fun hlen => hh ⟨heq, .inl hlen⟩, rfl, rfl⟩
  all_goals
    split_ifs at h with heq
    obtain ⟨rfl, rfl, rfl⟩ := hsome h
    exact ⟨fun hlen => hh ⟨heq, hlen⟩, rfl, rfl⟩

end Shape

/-! ## Places in trees -/

namespace TypeTree

variable {a b t u t' u' c d : TypeTree} {path path' : List Place} {place : Place}
  {limit budget : Nat} {pairs ps : List (TypeTree × TypeTree)} {found s : Bound} {clash : Clash}

/-- A path leads from two trees to two trees inside them, through layers of the same kind. -/
inductive Leads : List Place → TypeTree → TypeTree → TypeTree → TypeTree → Prop
  | here (t u : TypeTree) : Leads [] t u t u
  | inside {place : Place} {path : List Place} {t u t' u' c d : TypeTree}
      (kind : t.shape.kind = u.shape.kind) (ht : t.shape.constituent? place = some t')
      (hu : u.shape.constituent? place = some u') (h : Leads path t' u' c d) :
      Leads (place :: path) t u c d

namespace Leads

theorem trans (h : Leads path t u c d) (h' : Leads path' c d a b) :
    Leads (path ++ path') t u a b := by
  induction h with
  | here => exact h'
  | inside kind ht hu _ ih => exact .inside kind ht hu (ih h')

theorem isVar_of_constituent? {s : Shape TypeTree} (h : s.constituent? place = some c) :
    s.isVar = false := by
  cases s <;> first | rfl | cases place <;> simp [Shape.constituent?, Shape.children] at h

/-- A replacement of variables moves the whole and the part alike. -/
theorem subst (h : Leads path t u c d) (σ : VarIdent → TypeTree) :
    Leads path (t.subst σ) (u.subst σ) (c.subst σ) (d.subst σ) := by
  have hshape : ∀ {t t' : TypeTree} {place : Place}, t.shape.constituent? place = some t' →
      (t.subst σ).shape = t.shape.map (TypeTree.subst σ) := by
    rintro ⟨s⟩ t' place ht
    rw [shape_mk] at ht ⊢
    rw [subst_mk (isVar_of_constituent? ht), shape_mk]
  induction h with
  | here t u => exact .here _ _
  | inside kind ht hu _ ih =>
    refine .inside ?_ ?_ ?_ ih
    · rw [hshape ht, hshape hu, Shape.kind_map, Shape.kind_map, kind]
    · rw [hshape ht, Shape.constituent?_map, ht]
      rfl
    · rw [hshape hu, Shape.constituent?_map, hu]
      rfl

end Leads

theorem exists_leads_of_split (hm : move a b = .ok (.split ps)) {p : TypeTree × TypeTree}
    (hp : p ∈ ps) : ∃ path, Leads path a b p.1 p.2 := by
  rcases move_split hm with ⟨rfl, -⟩ | ⟨hh, rfl⟩
  · cases hp
  · obtain ⟨place, h₁, h₂⟩ := Shape.exists_place_of_mem_compared hh hp
    exact ⟨[place], .inside hh.kind_eq h₁ h₂ (.here _ _)⟩

/-- A run that fails before its budget is used up does so at a pair of trees inside the given ones,
all read through the bindings found. -/
theorem unifyPairs_error (hfound : Triangular found)
    (hpairs : ∀ p ∈ pairs, ∃ path, Leads path (applyAll found a) (applyAll found b)
      (applyAll found p.1) (applyAll found p.2))
    (h : unifyPairs limit budget pairs found = .error (clash, s)) :
    clash = .stepLimit limit ∨ ∃ path t u,
      Leads path (applyAll s a) (applyAll s b) t u ∧ move t u = .error clash := by
  induction budget generalizing pairs found with
  | zero =>
    cases pairs with
    | nil => cases h
    | cons p rest => exact .inl (Prod.mk.inj (Except.error.inj h)).1.symm
  | succ budget ih =>
    cases pairs with
    | nil => cases h
    | cons p rest =>
      obtain ⟨⟨path, hpath⟩, hrest⟩ := List.forall_mem_cons.mp hpairs
      rw [unifyPairs] at h
      cases hm : move (applyAll found p.1) (applyAll found p.2) with
      | error clash' =>
        rw [hm] at h
        obtain ⟨rfl, rfl⟩ := Prod.mk.inj (Except.error.inj h)
        exact .inr ⟨path, _, _, hpath, hm⟩
      | ok m =>
        rw [hm] at h
        cases m with
        | bind x r =>
          refine ih (hfound.bind hm) (fun q hq => ?_) h
          obtain ⟨path, hpath⟩ := hrest q hq
          exact ⟨path, hpath.subst _⟩
        | split ps =>
          refine ih hfound (List.forall_mem_append.mpr ⟨fun q hq => ?_, hrest⟩) h
          obtain ⟨path', hpath'⟩ := exists_leads_of_split hm hq
          obtain ⟨h₁, h₂⟩ := hfound.applyAll_split hm hq
          rw [h₁, h₂]
          exact ⟨path ++ path', hpath.trans hpath'⟩

end TypeTree

/-! ## Places in a store -/

namespace Store

open TypeTree

variable {st : Store} {a b : TypeId} {path : List Place} {t u : TypeTree}

/-- A path leads from two types to two types inside them, through types of the same kind. -/
inductive Leads (st : Store) : List Place → TypeId → TypeId → TypeId → TypeId → Prop
  | here (a b : TypeId) : Leads st [] a b a b
  | inside {place : Place} {path : List Place} {a b a' b' c d : TypeId}
      (kind : (st.shape a).kind = (st.shape b).kind)
      (ha : (st.shape a).constituent? place = some a')
      (hb : (st.shape b).constituent? place = some b')
      (h : Leads st path a' b' c d) : Leads st (place :: path) a b c d

theorem shape_tree_of_bare (h : st.bare a = a) : (st.tree a).shape = (st.shape a).map st.tree := by
  rw [shape_tree, h]

/-- A constituent of the tree of a type without qualifiers is the tree of a constituent, which has
none either. -/
theorem constituent?_tree {place : Place} (ha : a < st.size) (hq : st.bare a = a)
    (h : (st.tree a).shape.constituent? place = some t) :
    ∃ c, (st.shape a).constituent? place = some c ∧ c < st.size ∧ st.bare c = c ∧
      st.tree c = t := by
  rw [shape_tree_of_bare hq, Shape.constituent?_map, Option.map_eq_some_iff] at h
  obtain ⟨c, hplace, rfl⟩ := h
  have hmem : c ∈ st.children a := Shape.mem_children_of_constituent? hplace
  have hunqualified : (st.shape a).isQualified = false := hq ▸ isQualified_shape_bare st a
  exact ⟨c, hplace, lt_size_of_mem_children ha hmem, bare_of_mem_children ha hunqualified hmem, rfl⟩

/-- What a path leads to in the trees of two types without qualifiers, it leads to in the store. -/
theorem exists_leads (ha : a < st.size) (hb : b < st.size) (hqa : st.bare a = a)
    (hqb : st.bare b = b) (h : TypeTree.Leads path (st.tree a) (st.tree b) t u) :
    ∃ c d, st.Leads path a b c d ∧ (c < st.size ∧ st.bare c = c ∧ st.tree c = t) ∧
      (d < st.size ∧ st.bare d = d ∧ st.tree d = u) := by
  generalize hta : st.tree a = ta at h
  generalize htb : st.tree b = tb at h
  induction h generalizing a b with
  | here => exact ⟨a, b, .here a b, ⟨ha, hqa, hta⟩, hb, hqb, htb⟩
  | inside kind hca hcb _ ih =>
    subst hta htb
    rw [shape_tree_of_bare hqa, shape_tree_of_bare hqb, Shape.kind_map, Shape.kind_map] at kind
    obtain ⟨a', hplace, ha', hqa', hta'⟩ := constituent?_tree ha hqa hca
    obtain ⟨b', hplace', hb', hqb', htb'⟩ := constituent?_tree hb hqb hcb
    obtain ⟨c, d, hleads, hc, hd⟩ := ih ha' hb' hqa' hqb' hta' htb'
    exact ⟨c, d, .inside kind hplace hplace' hleads, hc, hd⟩

/-- Two types without qualifiers are where a path leads to their trees. -/
theorem leads_of_tree {c d : TypeId} (ha : a < st.size) (hb : b < st.size)
    (hc : c < st.size ∧ st.bare c = c) (hd : d < st.size ∧ st.bare d = d)
    (h : TypeTree.Leads path (st.tree a) (st.tree b) (st.tree c) (st.tree d)) :
    st.Leads path (st.bare a) (st.bare b) c d := by
  rw [← tree_bare st a, ← tree_bare st b] at h
  obtain ⟨c', d', hleads, ⟨hc', hqc, hct⟩, hd', hqd, hdt⟩ :=
    exists_leads (bare_lt_size ha) (bare_lt_size hb) (bare_bare st a) (bare_bare st b) h
  obtain rfl := eq_of_tree_eq hc' hc.1 hqc hc.2 hct
  obtain rfl := eq_of_tree_eq hd' hd.1 hqd hd.2 hdt
  exact hleads

/-- What a failure says of the place that it names, for two types read through its bindings: a
mismatch and an infinite type name the two types there, and wrong counts those of the types there. -/
def Located (st : Store) (a b : TypeId) : UnifyError → Prop
  | .mismatch expected found => expected ≠ found ∧ ∃ path, st.Leads path a b expected found
  | .infinite var containing =>
    st.isVar var = true ∧ var ≠ containing ∧ st.occurs var containing = true ∧
      ∃ path, st.Leads path a b var containing ∨ st.Leads path a b containing var
  | .arity expected found kind =>
    expected ≠ found ∧ ∃ path c d, st.Leads path a b c d ∧
      (st.shape c).arity? kind = some expected ∧ (st.shape d).arity? kind = some found
  | .stepLimit _ => True

/-- A failure is located where the trees that a path leads to clash. -/
theorem located_of_leads {e : UnifyError} (ha : a < st.size) (hb : b < st.size)
    (he : ∀ ty ∈ e.types, ty < st.size ∧ st.bare ty = ty)
    (h : TypeTree.Leads path (st.tree a) (st.tree b) t u) (hm : move t u = .error (e.read st)) :
    st.Located (st.bare a) (st.bare b) e := by
  obtain ⟨htu, hclash⟩ := move_error hm
  cases e with
  | mismatch x y =>
    obtain ⟨rfl, rfl⟩ : st.tree x = t ∧ st.tree y = u := by
      rcases hclash with hclash | ⟨_, _, hclash, -⟩ | ⟨_, _, _, hclash, -⟩ <;> cases hclash
      exact ⟨rfl, rfl⟩
    have hx := he x (by simp [UnifyError.types])
    have hy := he y (by simp [UnifyError.types])
    exact ⟨fun heq => htu (congrArg st.tree heq), path, leads_of_tree ha hb hx hy h⟩
  | infinite v w =>
    obtain ⟨x, hvar, hocc, hside⟩ : ∃ x, st.tree v = var x ∧ (st.tree w).Occurs x ∧
        ((t = var x ∧ u = st.tree w) ∨ (u = var x ∧ t = st.tree w)) := by
      rcases hclash with hclash | ⟨x, r, hclash, hocc, hside⟩ | ⟨_, _, _, hclash, -⟩
      · cases hclash
      · obtain ⟨hv, rfl⟩ := Clash.infinite.inj hclash
        exact ⟨x, hv, hocc, hside⟩
      · cases hclash
    have hv := he v (by simp [UnifyError.types])
    have hw := he w (by simp [UnifyError.types])
    have hvx : st.shape v = .var x := hv.2 ▸ shape_bare_of_tree_var hvar
    rw [← hvar] at hside
    refine ⟨by rw [isVar, hvx]; rfl, ?_, (occurs_iff hvx hw.1).mpr hocc, path, ?_⟩
    · rintro rfl
      rcases hside with ⟨rfl, rfl⟩ | ⟨rfl, rfl⟩ <;> exact htu rfl
    · rcases hside with ⟨rfl, rfl⟩ | ⟨rfl, rfl⟩
      · exact .inl (leads_of_tree ha hb hv hw h)
      · exact .inr (leads_of_tree ha hb hw hv h)
  | arity m n kind =>
    obtain ⟨hh, hcounts⟩ : ¬ t.shape.SameHead u.shape ∧
        t.shape.counts? u.shape = some (m, n, kind) := by
      rcases hclash with hclash | ⟨_, _, hclash, -⟩ | ⟨_, _, _, hclash, hh, hcounts⟩ <;> cases hclash
      exact ⟨hh, hcounts⟩
    obtain ⟨hne, hexpected, hfound⟩ := Shape.arity?_of_counts? hh hcounts
    rw [← tree_bare st a, ← tree_bare st b] at h
    obtain ⟨c, d, hleads, ⟨-, hqc, rfl⟩, -, hqd, rfl⟩ :=
      exists_leads (bare_lt_size ha) (bare_lt_size hb) (bare_bare st a) (bare_bare st b) h
    rw [shape_tree_of_bare hqc, Shape.arity?_map] at hexpected
    rw [shape_tree_of_bare hqd, Shape.arity?_map] at hfound
    exact ⟨hne, path, c, d, hleads, hexpected, hfound⟩
  | stepLimit limit => trivial

end Store

theorem UnifyError.read_of_le {st st' : Store} {e : UnifyError} (h : ∀ ty ∈ e.types, ty < st.size)
    (hle : st ≤ st') : e.read st' = e.read st := by
  cases e <;> simp_all [UnifyError.types, UnifyError.read, Store.tree_of_le hle]

namespace StoreM

open Store TypeTree

/-- A failure names a real place: from the two types, read through the bindings that come with the
failure, one path leads to the two types that it is about. -/
theorem unify_located (st : Store) (limit : Nat) (a b : TypeId) (ha : a < st.size)
    (hb : b < st.size) (f : UnifyFailure) (h : (unify limit a b st).1 = .error f) :
    let l := f.found.apply a (unify limit a b st).2
    let r := f.found.apply b l.2
    r.2.Located (r.2.bare l.1) (r.2.bare r.1) f.error := by
  intro l r
  obtain ⟨hsteps, hreads⟩ := yields_unify limit ha hb
  rw [h] at hreads
  obtain ⟨⟨hwithin, htypes⟩, hrun⟩ := hreads
  obtain ⟨hs, ⟨hl, hlread⟩, hr, hrread⟩ := f.found.apply_both hwithin
    (lt_size_of_le hsteps.le ha) (lt_size_of_le hsteps.le hb)
  rw [tree_of_le hsteps.le ha] at hlread
  rw [tree_of_le hsteps.le hb] at hrread
  have hread := UnifyError.read_of_le (fun ty hty => (htypes ty hty).1) hs.le
  have htypes : ∀ ty ∈ f.error.types, ty < r.2.size ∧ r.2.bare ty = ty := fun ty hty =>
    ⟨lt_size_of_le hs.le (htypes ty hty).1,
      (bare_of_le hs.le (htypes ty hty).1).trans (htypes ty hty).2⟩
  rcases unifyPairs_error .nil (List.forall_mem_singleton.mpr ⟨[], .here _ _⟩) hrun with
    hlimit | ⟨path, t, u, hleads, hm⟩
  · have herror : f.error = .stepLimit limit := by
      cases he : f.error <;> rw [he] at hlimit <;> cases hlimit
      rfl
    rw [herror]
    trivial
  · rw [← hlread, ← hrread] at hleads
    exact located_of_leads hl hr htypes hleads (hread ▸ hm)

/-- The pointer to what `v` was bound to and the second `bool` stand at the second item. -/
theorem unify_located_clashingPairs :
    let (p, st) := clashingPairs .new
    p.1 < st.size ∧ p.2 < st.size ∧ ∃ f, (unify 4 p.1 p.2 st).1 = .error f ∧
      let l := f.found.apply p.1 (unify 4 p.1 p.2 st).2
      let r := f.found.apply p.2 l.2
      ∃ expected found, f.error = .mismatch expected found ∧ expected ≠ found ∧
        ∃ path, r.2.Leads path (r.2.bare l.1) (r.2.bare r.1) expected found := by
  obtain ⟨-, ha, hb, hat, hbt⟩ := yields_clashingPairs .new
  generalize clashingPairs .new = w at *
  obtain ⟨p, st⟩ := w
  obtain ⟨f, hf, hread⟩ := exists_unify_error ha hb (by rw [hat, hbt]; exact unifyPairs_clashing)
  have hlocated := unify_located st 4 p.1 p.2 ha hb f hf
  refine ⟨ha, hb, f, hf, ?_⟩
  cases he : f.error <;> rw [he] at hread hlocated <;>
    simp only [UnifyError.read, reduceCtorEq] at hread
  exact ⟨_, _, rfl, hlocated⟩

end StoreM

end ConstraintTyping
