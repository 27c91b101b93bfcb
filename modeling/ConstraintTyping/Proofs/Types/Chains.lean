import ConstraintTyping.Proofs.Types.Rewriting
import Mathlib.Data.List.Nodup

/-!
# Chains of qualifiers

A type of a store is given by its chain of qualifiers and the type under them.  In a store that is
reached by steps no chain repeats a qualifier and none holds both `mut` and `const`, so putting the
qualifiers of a type back on another base gives the same chain again.  This is why replacing the
variables of a type by types without qualifiers keeps its chain.
-/

namespace ConstraintTyping

/-- A chain that repeats no qualifier and does not hold both `mut` and `const`. -/
structure ValidChain (qs : List Qualifier) : Prop where
  nodup : qs.Nodup
  exclusive : ¬ (.mutable ∈ qs ∧ .constant ∈ qs)

theorem validChain_nil : ValidChain [] := ⟨List.nodup_nil, by simp⟩

theorem ValidChain.of_append {qs rs : List Qualifier} (h : ValidChain (qs ++ rs)) :
    ValidChain rs :=
  ⟨(List.nodup_append.mp h.nodup).2.1, fun ⟨hm, hc⟩ =>
    h.exclusive ⟨List.mem_append_right qs hm, List.mem_append_right qs hc⟩⟩

namespace Store

variable {st st' : Store} {ty a b : TypeId}

theorem qualifiers_of_qualified {q : Qualifier} {base : TypeId}
    (h : st.shape ty = .qualified q base) : st.qualifiers ty = q :: st.qualifiers base := by
  rw [qualifiers]
  split
  · next q' base' hs =>
    obtain ⟨rfl, rfl⟩ := Shape.qualified.inj (h.symm.trans hs)
    rfl
  · next hs => exact absurd h (hs q base)

theorem qualifiers_of_not_qualified (h : (st.shape ty).isQualified = false) :
    st.qualifiers ty = [] := by
  rw [qualifiers]
  split
  · next q base hs =>
    rw [hs] at h
    simp [Shape.isQualified] at h
  · rfl

theorem qualifiers_of_bare (h : st.bare ty = ty) : st.qualifiers ty = [] := by
  refine qualifiers_of_not_qualified ?_
  rw [← h]
  exact isQualified_shape_bare st ty

theorem qualifiers_of_le (h : st ≤ st') (hty : ty < st.size) :
    st'.qualifiers ty = st.qualifiers ty := by
  induction ty using Nat.strongRecOn with
  | ind ty ih =>
    have hshape := shape_of_le h hty
    by_cases hq : (st.shape ty).isQualified = true
    · obtain ⟨q, base, hs⟩ := isQualified_iff.mp hq
      have hbase := lt_of_qualified hs
      rw [qualifiers_of_qualified hs, qualifiers_of_qualified (hshape.trans hs),
        ih base hbase (Nat.lt_trans hbase hty)]
    · have hq : (st.shape ty).isQualified = false := by simpa using hq
      rw [qualifiers_of_not_qualified hq, qualifiers_of_not_qualified (hshape ▸ hq)]

/-- A type is determined by its qualifiers and the type under them. -/
theorem eq_of_qualifiers_eq (ha : a < st.size) (hb : b < st.size)
    (hq : st.qualifiers a = st.qualifiers b) (hbare : st.bare a = st.bare b) : a = b := by
  induction a using Nat.strongRecOn generalizing b with
  | ind a ih =>
    have hnil : ∀ c, st.qualifiers c = [] ↔ (st.shape c).isQualified = false := by
      intro c
      refine ⟨fun h => Bool.eq_false_iff.mpr fun hc => ?_, qualifiers_of_not_qualified⟩
      obtain ⟨q, base, hs⟩ := isQualified_iff.mp hc
      rw [qualifiers_of_qualified hs] at h
      cases h
    cases hqa : (st.shape a).isQualified with
    | false =>
      have hqb : (st.shape b).isQualified = false := (hnil b).mp (hq ▸ (hnil a).mpr hqa)
      rwa [bare_of_not_qualified hqa, bare_of_not_qualified hqb] at hbare
    | true =>
      have hqb : (st.shape b).isQualified = true := by
        rw [← Bool.not_eq_false, ← hnil b, ← hq, hnil a, hqa]
        exact Bool.noConfusion
      obtain ⟨q, base, hs⟩ := isQualified_iff.mp hqa
      obtain ⟨q', base', hs'⟩ := isQualified_iff.mp hqb
      rw [qualifiers_of_qualified hs, qualifiers_of_qualified hs', List.cons.injEq] at hq
      rw [bare_of_qualified hs, bare_of_qualified hs'] at hbare
      have hlt := lt_of_qualified hs
      have hbase : base = base' :=
        ih base hlt (Nat.lt_trans hlt ha) (Nat.lt_trans (lt_of_qualified hs') hb) hq.2 hbare
      exact eq_of_shape_eq ha hb (by rw [hs, hs', hq.1, hbase])

theorem shape_of_ge (h : st.size ≤ ty) : st.shape ty = .prim .error := by
  unfold shape TypeTable.shape
  rw [TypeData.node?_eq_none h]

/-- Nothing is kept with a number beyond the table. -/
theorem flags_of_ge (h : st.size ≤ ty) : st.flags ty = 0 := by
  have hsize : st.table.flags.size ≤ ty := st.table.lawful.flags_size ▸ h
  rw [flags, TypeData.flagsOf, Array.getD_eq_getD_getElem?, Array.getElem?_eq_none hsize,
    Option.getD_none]

theorem lt_size_of_mem_qualifiers {q : Qualifier} (h : q ∈ st.qualifiers ty) : ty < st.size := by
  by_contra hge
  rw [qualifiers_of_not_qualified (by rw [shape_of_ge (Nat.le_of_not_lt hge)]; rfl)] at h
  cases h

/-- Every chain of the store is valid. -/
def WellQualified (st : Store) : Prop := ∀ ty, ValidChain (st.qualifiers ty)

end Store

namespace StoreM

open Store

variable {st : Store} {ty : TypeId} {q : Qualifier} {base : TypeId}

/-- What is new after interning a shape has that shape, over types that were there before. -/
theorem shape_intern_of_ge {s : Shape TypeId} (hge : st.size ≤ ty)
    (hlt : ty < (intern s st).2.size) :
    (intern s st).2.shape ty = st.table.key s ∧
      ∀ c ∈ (st.table.key s).children, c < st.size := by
  rcases st.table.intern_cases s with ⟨id, -, h⟩ | ⟨hbelow, -, h⟩ | ⟨-, h⟩
  · rw [intern_eq, h] at hlt
    exact absurd hlt (Nat.not_lt.mpr hge)
  · have hdata : (intern s st).2.table.toTypeData = st.table.toTypeData.push (st.table.key s) := h
    obtain rfl : ty = st.size := by
      have hlt : ty < (intern s st).2.table.items.size := hlt
      rw [hdata, TypeData.items_push, Array.size_push] at hlt
      exact Nat.le_antisymm (Nat.le_of_lt_succ hlt) hge
    refine ⟨?_, hbelow⟩
    have hnode : (intern s st).2.table.node? st.size =
        some (Node.ofShape st.table.toTypeData (st.table.key s)) := by
      rw [hdata, st.table.lawful.node?_push]
      exact if_pos rfl
    exact shape_of_node hnode
  · rw [intern_eq, h] at hlt
    exact absurd hlt (Nat.not_lt.mpr hge)

/-- Interning keeps chains valid when the new chain, if there is one, is valid. -/
theorem wellQualified_intern {s : Shape TypeId} (h : st.WellQualified)
    (hs : ∀ q base, s = .qualified q base → ValidChain (q :: st.qualifiers base)) :
    (intern s st).2.WellQualified := by
  intro ty
  have hle := intern_le s st
  rcases Nat.lt_or_ge ty st.size with hlt | hge
  · rw [qualifiers_of_le hle hlt]
    exact h ty
  rcases Nat.lt_or_ge ty (intern s st).2.size with hlt | hout
  swap
  · rw [qualifiers_of_not_qualified (by rw [shape_of_ge hout]; rfl)]
    exact validChain_nil
  obtain ⟨hshape, hchildren⟩ := shape_intern_of_ge hge hlt
  by_cases hq : s.isQualified = true
  · obtain ⟨q, base, rfl⟩ := isQualified_iff.mp hq
    have hkey : st.table.key (.qualified q base) = .qualified q base := rfl
    rw [hkey] at hshape hchildren
    rw [qualifiers_of_qualified hshape,
      qualifiers_of_le hle (hchildren base (by simp [Shape.children]))]
    exact hs q base rfl
  · rw [qualifiers_of_not_qualified (by rw [hshape, TypeTable.isQualified_key]; simpa using hq)]
    exact validChain_nil

theorem qualifiers_wrap (hbase : base < st.size) :
    (wrap q base st).2.qualifiers (wrap q base st).1 = q :: st.qualifiers base := by
  rw [qualifiers_of_qualified (wrap_spec q hbase).1]
  exact congrArg (q :: ·) (qualifiers_of_le (intern_le _ st) hbase)

theorem wellQualified_wrap (h : st.WellQualified) (hchain : ValidChain (q :: st.qualifiers base)) :
    (wrap q base st).2.WellQualified := by
  refine wellQualified_intern h fun q' base' heq => ?_
  obtain ⟨rfl, rfl⟩ := Shape.qualified.inj heq
  exact hchain

/-- A chain that is put on one qualifier after the other. -/
theorem qualifiers_wraps (qs : List Qualifier) {st : Store} {base : TypeId} (h : st.WellQualified)
    (hbase : base < st.size) (hchain : ValidChain (qs.reverse ++ st.qualifiers base)) :
    let r := qs.foldlM (fun inner q => wrap q inner) base st
    r.2.WellQualified ∧ r.2.qualifiers r.1 = qs.reverse ++ st.qualifiers base := by
  induction qs generalizing st base with
  | nil => exact ⟨h, rfl⟩
  | cons q qs ih =>
    rw [List.reverse_cons, List.append_assoc, List.singleton_append] at hchain ⊢
    rw [List.foldlM_cons]
    have hq := qualifiers_wrap (q := q) hbase
    rw [← hq] at hchain ⊢
    exact ih (wellQualified_wrap h (hq ▸ hchain.of_append)) (wrap_spec q hbase).2.1 hchain

/-- Qualifying a type keeps all chains valid. -/
theorem wellQualified_qualify (h : st.WellQualified) : (qualify q base st).2.WellQualified := by
  have hvalid := h base
  rcases qualify_cases q base st with ⟨-, heq⟩ | ⟨⟨rfl, hm, hc⟩, heq⟩ | ⟨⟨hq, hcm, hmc⟩, heq⟩
  · rw [heq]
    exact h
  · -- `mut` goes on top of what is left of the chain without `const`
    have hkept : ValidChain (((st.qualifiers base).reverse.filter (· ≠ .constant)).reverse ++
        st.qualifiers (st.bare base)) := by
      rw [qualifiers_of_bare (bare_bare st base), List.append_nil]
      refine ⟨List.nodup_reverse.mpr ((List.nodup_reverse.mpr hvalid.nodup).filter _), ?_⟩
      simp
    have hbase := bare_lt_size (lt_size_of_mem_qualifiers hc)
    obtain ⟨hwell, hchain⟩ := qualifiers_wraps _ h hbase hkept
    rw [heq, StateM.bind_apply]
    refine wellQualified_wrap hwell ?_
    rw [hchain]
    refine ⟨List.nodup_cons.mpr ⟨?_, hkept.nodup⟩, ?_⟩
    · rw [qualifiers_of_bare (bare_bare st base)]
      simpa using hm
    · rw [qualifiers_of_bare (bare_bare st base)]
      simp
  · rw [heq]
    refine wellQualified_wrap h ⟨List.nodup_cons.mpr ⟨hq, hvalid.nodup⟩, ?_⟩
    rintro ⟨h₁, h₂⟩
    rcases List.mem_cons.mp h₁ with rfl | h₁ <;> rcases List.mem_cons.mp h₂ with h₂ | h₂
    · cases h₂
    · exact hmc ⟨rfl, h₂⟩
    · exact hcm ⟨h₂.symm, h₁⟩
    · exact hvalid.exclusive ⟨h₁, h₂⟩

end StoreM

namespace Store

variable {st st' : Store}

theorem exists_shape_new (ty : TypeId) : ∃ p, Store.new.shape ty = .prim p := by
  rcases Nat.lt_or_ge ty Store.new.size with hlt | hge
  · obtain ⟨n, hn⟩ := exists_node hlt
    obtain ⟨p, -, rfl⟩ := TypeTable.primData_node?.mp hn
    exact ⟨p, shape_of_node hn⟩
  · exact ⟨_, shape_of_ge hge⟩

theorem wellQualified_new : Store.new.WellQualified := by
  intro ty
  obtain ⟨p, hp⟩ := exists_shape_new ty
  rw [qualifiers_of_not_qualified (by rw [hp]; rfl)]
  exact validChain_nil

theorem WellQualified.step (h : st.WellQualified) (hs : Step st st') : st'.WellQualified := by
  cases hs with
  | build s hq =>
    refine StoreM.wellQualified_intern h fun q base heq => ?_
    rw [heq] at hq
    cases hq
  | qualify q base => exact StoreM.wellQualified_qualify h
  | declare nominals =>
    intro ty
    rcases Nat.lt_or_ge ty st.size with hlt | hge
    · rw [qualifiers_of_le (Step.declare nominals).le hlt]
      exact h ty
    · have hge : ({ st with nominals } : Store).size ≤ ty := hge
      rw [qualifiers_of_not_qualified (by rw [shape_of_ge hge]; rfl)]
      exact validChain_nil

theorem WellQualified.steps (h : st.WellQualified) (hs : Steps st st') : st'.WellQualified := by
  induction hs with
  | refl => exact h
  | tail _ hstep ih => exact ih.step hstep

theorem Reachable.wellQualified (h : st.Reachable) : st.WellQualified :=
  wellQualified_new.steps h

/-- A replacement of the variables of a store by types of the store, as a substitution of trees. -/
noncomputable def readVars (st : Store) (f : TypeId → TypeId) (x : VarIdent) : TypeTree :=
  open Classical in if h : ∃ v, st.shape v = .var x then st.tree (f h.choose) else .var x

theorem readVars_eq {f : TypeId → TypeId} {v : TypeId} {x : VarIdent} (hv : st.shape v = .var x) :
    st.readVars f x = st.tree (f v) := by
  have h : ∃ w, st.shape w = .var x := ⟨v, hv⟩
  rw [readVars, dif_pos h, eq_of_shape_var h.choose_spec hv]

/-- A variable that occurs in a type of the store is a type of the store. -/
theorem exists_var_of_occurs {ty : TypeId} {x : VarIdent} (h : (st.tree ty).Occurs x) :
    ∃ v, st.shape v = .var x := by
  induction ty using Nat.strongRecOn with
  | ind ty ih =>
    rcases occurs_tree.mp h with hs | ⟨c, hc, hx⟩
    · exact ⟨ty, hs⟩
    · exact ih c (lt_of_mem_children hc) hx

/-- On the types of a store a replacement reads the same in every later store. -/
theorem subst_readVars_of_le {f : TypeId → TypeId} {ty : TypeId} (hle : st ≤ st')
    (hf : ∀ v, st.isVar v = true → f v < st.size) :
    (st.tree ty).subst (st'.readVars f) = (st.tree ty).subst (st.readVars f) := by
  refine TypeTree.subst_congr fun x hx => ?_
  obtain ⟨v, hv⟩ := exists_var_of_occurs hx
  have hvar : st.isVar v = true := by rw [isVar, hv]; rfl
  rw [readVars_eq hv, readVars_eq ((shape_of_le hle (lt_size_of_isVar hvar)).trans hv),
    tree_of_le hle (hf v hvar)]

end Store

/-! ## Replacement keeps chains -/

namespace StoreM

open Store

variable {st st₀ : Store} {ty : TypeId} {q : Qualifier} {base : TypeId}

/-- Interning a shape that is not a qualifier never gives a qualified type. -/
theorem isQualified_intern {s : Shape TypeId} (hs : s.isQualified = false) :
    ((intern s st).2.shape (intern s st).1).isQualified = false := by
  rw [intern_eq]
  rcases st.table.intern_cases s with ⟨id, hid, h⟩ | ⟨hbelow, h₁, h₂⟩ | ⟨-, h⟩
  · obtain ⟨n, hn, hns⟩ := st.table.lawful.find?_iff.mp hid
    rw [h]
    show (st.shape id).isQualified = false
    rw [shape_of_node hn, hns, TypeTable.isQualified_key, hs]
  · have hge : st.size ≤ (intern s st).1 := Nat.le_of_eq h₁.symm
    show ((intern s st).2.shape (intern s st).1).isQualified = false
    rw [(shape_intern_of_ge hge (intern_lt_size s st)).1, TypeTable.isQualified_key, hs]
  · rw [h]
    show (st.shape (TypeId.ofPrim .error)).isQualified = false
    rw [shape_prim]
    rfl

/-- Rebuilding a type without qualifiers never gives a qualified type. -/
theorem isQualified_rebuild (parts : List TypeId) (h : (st.shape ty).isQualified = false) :
    ((rebuild ty parts st).2.shape (rebuild ty parts st).1).isQualified = false := by
  have hqual : ∀ s', (st.shape ty).withChildren? parts = some s' → s'.isQualified = false := by
    intro s' hs'
    cases hs : st.shape ty <;> cases parts <;> rw [hs] at h hs' <;>
      simp_all [Shape.withChildren?, Shape.isQualified] <;> subst hs' <;> rfl
  unfold rebuild
  simp only [StateM.bind_apply, StateM.get_apply]
  cases hs' : (st.shape ty).withChildren? parts with
  | none => exact h
  | some s' =>
    have hq := hqual s' hs'
    cases s' with
    | qualified q base => cases hq
    | tuple items =>
      show ((tuple items st).2.shape (tuple items st).1).isQualified = false
      unfold tuple
      split
      · show (st.shape (TypeId.ofPrim .unit)).isQualified = false
        rw [shape_prim]
        rfl
      · exact isQualified_intern rfl
    | _ => exact isQualified_intern rfl

/-- A qualifier that makes a valid chain goes on top. -/
theorem qualify_eq_wrap (h : ValidChain (q :: st.qualifiers base)) :
    qualify q base st = wrap q base st := by
  obtain ⟨hq, -⟩ := List.nodup_cons.mp h.nodup
  rcases qualify_cases q base st with ⟨hin | ⟨rfl, hin⟩, -⟩ | ⟨⟨rfl, -, hin⟩, -⟩ | ⟨-, heq⟩
  · exact absurd hin hq
  · exact absurd ⟨List.mem_cons_of_mem _ hin, List.mem_cons_self⟩ h.exclusive
  · exact absurd ⟨List.mem_cons_self, List.mem_cons_of_mem _ hin⟩ h.exclusive
  · exact heq

theorem qualifiers_rebuild_qualified {q : Qualifier} {base new : TypeId}
    (hs : st.shape ty = .qualified q base) (hnew : new < st.size)
    (hchain : ValidChain (q :: st.qualifiers new)) :
    (rebuild ty [new] st).2.qualifiers (rebuild ty [new] st).1 = q :: st.qualifiers new := by
  have hrun : rebuild ty [new] st = qualify q new st := by
    unfold rebuild
    simp only [StateM.bind_apply, StateM.get_apply, hs, Shape.withChildren?]
  rw [hrun, qualify_eq_wrap hchain]
  exact qualifiers_wrap hnew

/-- Replacing the variables of a type by types without qualifiers replaces them in its tree and
keeps its chain. -/
theorem yields_mapVars_chain {f : TypeId → TypeId} (hwell : st₀.WellQualified)
    (hf : ∀ v, st₀.isVar v = true → f v < st₀.size ∧ st₀.bare (f v) = f v)
    (hle : Steps st₀ st) (hty : ty < st₀.size) :
    (mapVars f ty).Yields st fun r st' => r < st'.size ∧
      st'.tree r = (st₀.tree ty).subst (st₀.readVars f) ∧
      st'.qualifiers r = st₀.qualifiers ty := by
  induction ty using Nat.strongRecOn generalizing st with
  | ind ty ih =>
    have htree := yields_mapVars_from (f := f) (σ := st₀.readVars f) (fun v x _ hx =>
      ⟨(hf v (by rw [Store.isVar, hx]; rfl)).1, (readVars_eq hx).symm⟩) hle.le hty
    refine ⟨htree.steps, htree.result.1, htree.result.2, ?_⟩
    -- what is left is the chain, which only the qualified types have
    have hty' : ty < st.size := lt_size_of_le hle.le hty
    have hshape : st.shape ty = st₀.shape ty := shape_of_le hle.le hty
    have hchildren : st.children ty = st₀.children ty := children_of_le hle.le hty
    rw [mapVars]
    change Store.qualifiers ((ite (st.isGeneric ty = true) _ _ : StoreM TypeId) st).2
      ((ite (st.isGeneric ty = true) _ _ : StoreM TypeId) st).1 = _
    by_cases hg : st.isGeneric ty = true
    swap
    · rw [if_neg hg]
      exact qualifiers_of_le hle.le hty
    rw [if_pos hg]
    by_cases hv : st.isVar ty = true
    · rw [if_pos hv]
      have hv₀ : st₀.isVar ty = true := by rw [← hv, Store.isVar, Store.isVar, hshape]
      obtain ⟨hlt, hbare⟩ := hf ty hv₀
      obtain ⟨x, hx⟩ := Shape.isVar_iff.mp hv₀
      have hx : st₀.shape ty = .var x := hx
      have hnil : st₀.qualifiers ty = [] := qualifiers_of_not_qualified (by rw [hx]; rfl)
      rw [hnil]
      exact (qualifiers_of_le hle.le hlt).trans (qualifiers_of_bare hbare)
    rw [if_neg hv]
    have hloop : ((st.children ty).attach.mapM fun c => mapVars f c.1).Yields st
        fun ys st' => List.Forall₂
          (fun c r => r < st'.size ∧ st'.qualifiers r = st₀.qualifiers c.1)
          (st.children ty).attach ys := by
      refine yields_mapM (P := fun (c : { c // c ∈ st.children ty }) r st' =>
        r < st'.size ∧ st'.qualifiers r = st₀.qualifiers c.1) ?_ ?_
      · intro c r st₁ st₂ hs h
        exact ⟨lt_size_of_le hs.le h.1, by rw [qualifiers_of_le hs.le h.1, h.2]⟩
      · intro c _ st' hs
        have hc : c.1 ∈ st₀.children ty := hchildren ▸ c.2
        exact (ih c.1 (lt_of_mem_children hc) (hle.trans hs)
          (lt_size_of_mem_children hty hc)).mono fun r st'' _ hr => ⟨hr.1, hr.2.2⟩
    obtain ⟨hs, hmapped⟩ := hloop
    simp only [StateM.bind_apply]
    generalize hm : ((st.children ty).attach.mapM fun c => mapVars f c.1) st = m at hs hmapped ⊢
    obtain ⟨mapped, st₁⟩ := m
    have hle₁ : Steps st₀ st₁ := hle.trans hs
    have hshape₁ : st₁.shape ty = st₀.shape ty := shape_of_le hle₁.le hty
    by_cases hsame : mapped = st.children ty
    · rw [if_pos hsame]
      exact qualifiers_of_le hle₁.le hty
    rw [if_neg hsame]
    cases hq : (st₀.shape ty).isQualified with
    | false =>
      rw [qualifiers_of_not_qualified hq]
      exact qualifiers_of_not_qualified (isQualified_rebuild mapped (hshape₁ ▸ hq))
    | true =>
      obtain ⟨q, base, hs₀⟩ := isQualified_iff.mp hq
      have hcs : st.children ty = [base] := by
        rw [hchildren]
        show (st₀.shape ty).children = [base]
        rw [hs₀]; rfl
      obtain ⟨new, rfl, hnew, hchain⟩ : ∃ new, mapped = [new] ∧ new < st₁.size ∧
          st₁.qualifiers new = st₀.qualifiers base := by
        have hall := (List.forall₂_map_left_iff (f := Subtype.val)
          (R := fun c r => r < st₁.size ∧ st₁.qualifiers r = st₀.qualifiers c)).mpr hmapped
        rw [List.attach_map_subtype_val, hcs] at hall
        obtain ⟨new, rest, hnew, hrest, rfl⟩ := List.forall₂_cons_left_iff.mp hall
        rw [List.forall₂_nil_left_iff.mp hrest]
        exact ⟨new, rfl, hnew⟩
      have hvalid := hwell ty
      rw [qualifiers_of_qualified hs₀, ← hchain] at hvalid ⊢
      exact qualifiers_rebuild_qualified (hshape₁.trans hs₀) hnew hvalid

/-! ## Replacing several variables -/

/-- The constituents of a type with their variables replaced. -/
theorem yields_mapChildren {f : TypeId → TypeId} {st₀ : Store}
    (hf : ∀ v, v < st₀.size → f v < st₀.size) (hle : st₀ ≤ st) (hty : ty < st₀.size) :
    ((st.children ty).mapM (mapVars f)).Yields st fun mapped st' =>
      mapped.length = (st.children ty).length ∧ ∀ m ∈ mapped, m < st'.size := by
  refine (yields_mapM (P := fun _ m st' => m < st'.size)
    (fun _ _ _ _ hs hm => lt_size_of_le hs.le hm) fun c hc st' hs => ?_).mono
    fun mapped st' _ hall =>
      ⟨hall.length_eq.symm, fun m hm => (exists_mem_of_forall₂ hall hm).choose_spec.2⟩
  rw [children_of_le hle hty] at hc
  exact (yields_mapVars_from (fun v x hv hx => ⟨hf v hv, (readVars_eq hx).symm⟩)
    (le_trans hle hs.le) (lt_size_of_mem_children hty hc)).mono fun _ _ _ hr => hr.1

/-- What a variable is replaced by is a type of the store. -/
theorem lookup_lt {mapping : List (TypeId × TypeId)} {n v : Nat}
    (h : ∀ p ∈ mapping, p.2 < n) (hv : v < n) : (mapping.lookup v).getD v < n := by
  cases hl : mapping.lookup v with
  | none => exact hv
  | some r =>
    obtain ⟨l₁, l₂, hl, -⟩ := List.lookup_eq_some_iff.mp hl
    exact h (v, r) (by rw [hl]; simp)

theorem yields_substituteAll {mapping : List (TypeId × TypeId)}
    (hmapping : ∀ p ∈ mapping, p.2 < st.size) (hty : ty < st.size) :
    (substituteAll mapping ty).Yields st fun r st' => r < st'.size ∧
      st'.tree r = (st.tree ty).subst (st.readVars fun v => (mapping.lookup v).getD v) := by
  unfold substituteAll
  split
  · next hempty =>
    refine yields_pure ⟨hty, (TypeTree.subst_eq_self fun x hx => ?_).symm⟩
    obtain ⟨v, hv⟩ := exists_var_of_occurs hx
    rw [readVars_eq hv, List.isEmpty_iff.mp hempty]
    exact tree_of_var hv
  · exact yields_mapVars (fun v x hv hx => ⟨lookup_lt hmapping hv,
      (readVars_eq (f := fun v => (mapping.lookup v).getD v) hx).symm⟩) hty

/-- A copy with new variables is an instance. -/
theorem yields_instantiateFresh (hty : ty < st.size) :
    (instantiateFresh ty).Yields st fun r st' =>
      r < st'.size ∧ ∃ σ, st'.tree r = (st.tree ty).subst σ := by
  unfold instantiateFresh
  refine yields_get_bind ?_
  have hfresh : ((st.collectVars ty).mapM fun v => do return (v, ← freshVar)).Yields st
      fun mapping st' =>
        List.Forall₂ (fun _ (p : TypeId × TypeId) => p.2 < st'.size) (st.collectVars ty) mapping := by
    refine yields_mapM (P := fun _ (p : TypeId × TypeId) st' => p.2 < st'.size)
      (fun _ _ _ _ hs h => lt_size_of_le hs.le h) fun v _ st' _ => ?_
    refine Yields.bind (Q := fun a st'' => a < st''.size) ?_ fun a st'' _ ha => yields_pure ha
    exact (yields_intern rfl (by simp [Shape.children])).mono fun _ _ _ h => h.1
  refine hfresh.bind fun mapping st₁ hs hmapping => ?_
  have hlt : ∀ p ∈ mapping, p.2 < st₁.size := by
    intro p hp
    obtain ⟨_, -, h⟩ := exists_mem_of_forall₂ hmapping hp
    exact h
  refine (yields_substituteAll hlt (lt_size_of_le hs.le hty)).mono fun r st₂ _ hr => ?_
  rw [tree_of_le hs.le hty] at hr
  exact ⟨hr.1, _, hr.2⟩

end StoreM

end ConstraintTyping
