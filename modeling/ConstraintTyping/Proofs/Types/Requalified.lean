import ConstraintTyping.Proofs.Types.Uniquing

/-!
# Rebuilding and requalifying

A type is taken apart into its head and its constituents, and put together again from them: over its
own constituents it is itself, over others it keeps the head and takes them, stripped of their
qualifiers.

Qualifiers are put on a type one after the other.  What is under them stays, and the qualifiers that
are left are those of the type and the new ones together, without `const` where `mut` is among them.
So it makes no difference in which order they come.
-/

namespace ConstraintTyping

/-- A qualifier is left when some are put together: it is one of them, and it is not a `const` that
gives way to `mut`. -/
def Qualifier.Left (qs : List Qualifier) (q : Qualifier) : Prop :=
  q ∈ qs ∧ ¬ (q = .constant ∧ .mutable ∈ qs)

namespace Qualifier

/-- What is left when more is put on what was left. -/
theorem left_append_of_left {qs chain : List Qualifier} (h : ∀ q, q ∈ chain ↔ Left qs q)
    (ps : List Qualifier) (q : Qualifier) : Left (ps ++ chain) q ↔ Left (ps ++ qs) q := by
  have hmut : Qualifier.mutable ∈ chain ↔ Qualifier.mutable ∈ qs := by
    rw [h]
    exact and_iff_left nofun
  simp only [Left, List.mem_append, hmut]
  rw [h q]
  unfold Left
  tauto

/-- Only the members count. -/
theorem left_congr {ps qs : List Qualifier} (h : ∀ q, q ∈ ps ↔ q ∈ qs) (q : Qualifier) :
    Left ps q ↔ Left qs q := by
  unfold Left
  rw [h q, h .mutable]

/-- In a valid chain nothing gives way. -/
theorem left_of_validChain {qs : List Qualifier} (h : ValidChain qs) (q : Qualifier) :
    q ∈ qs ↔ Left qs q :=
  (and_iff_left_of_imp fun hq ⟨hc, hm⟩ => h.exclusive ⟨hm, hc ▸ hq⟩).symm

end Qualifier

namespace StoreM

open Store Qualifier

variable {st : Store} {ty base : TypeId}

/-! ## Rebuilding -/

/-- The tuple without items is the only type with its head. -/
theorem ne_nil_of_head_tuple {items : List TypeId} (h : st.NoEmptyTuple)
    (hhead : (Shape.tuple items).head = (st.shape ty).head) : items ≠ [] := by
  rintro rfl
  refine h ty ?_
  cases hs : st.shape ty <;> rw [hs] at hhead <;> simp_all [Shape.head, Shape.map]

/-- A shape over types of the store keeps its head when it is built, and takes them bare. -/
theorem head_intern {s : Shape TypeId} (hq : s.isQualified = false)
    (hs : ∀ c ∈ s.children, c < st.size) :
    let r := intern s st
    r.1 < r.2.size ∧ (r.2.shape r.1).head = s.head ∧ r.2.children r.1 = s.children.map st.bare := by
  obtain ⟨-, hlt, hshape⟩ := yields_intern hq hs
  refine ⟨hlt, by rw [hshape, Shape.head_map], ?_⟩
  exact (congrArg Shape.children hshape).trans (Shape.children_map ..)

/-- A type built with its own head over other constituents, as many as it has. -/
theorem head_rebuild {parts : List TypeId} (h : st.NoEmptyTuple) (hty : ty < st.size)
    (hq : (st.shape ty).isQualified = false) (hparts : ∀ c ∈ parts, c < st.size)
    (hlen : parts.length = (st.children ty).length) :
    let r := rebuild ty parts st
    r.1 < r.2.size ∧ (r.2.shape r.1).head = (st.shape ty).head ∧
      r.2.children r.1 = parts.map st.bare := by
  unfold rebuild
  simp only [StateM.bind_apply, StateM.get_apply]
  rcases Shape.withChildren?_of_length (s := st.shape ty) hlen with ⟨hnone, hnil⟩ | ⟨s, hs, hhead, hchildren, hqual⟩
  · have hparts : parts = [] := by
      rw [← List.length_eq_zero_iff, hlen]
      exact congrArg List.length hnil
    rw [hnone]
    exact ⟨hty, rfl, hparts ▸ hnil⟩
  have hintern := head_intern (hqual.trans hq) (hchildren.symm ▸ hparts)
  rw [hchildren, hhead] at hintern
  rw [hs]
  cases s with
  | qualified q base => rw [hq] at hqual; cases hqual
  | tuple items =>
    have hne := ne_nil_of_head_tuple h hhead
    show let r := tuple items st
      r.1 < r.2.size ∧ (r.2.shape r.1).head = (st.shape ty).head ∧
        r.2.children r.1 = parts.map st.bare
    rw [tuple, if_neg (by simpa using hne)]
    exact hintern
  | _ => exact hintern

/-! ## Qualifying -/

/-- Put qualifiers on a type, one after the other. -/
def qualifyAll (qs : List Qualifier) (base : TypeId) : StoreM TypeId :=
  qs.foldlM (fun inner q => qualify q inner) base

/-- One more qualifier on a type: those that are left of its chain and the new one. -/
theorem mem_qualifiers_qualify (h : st.WellQualified) (p : Qualifier) (hbase : base < st.size)
    (q : Qualifier) :
    q ∈ (qualify p base st).2.qualifiers (qualify p base st).1 ↔
      Left (p :: st.qualifiers base) q := by
  have hvalid := h base
  rcases qualify_cases p base st with ⟨hin, heq⟩ | ⟨⟨rfl, hm, hc⟩, heq⟩ | ⟨⟨hp, hcm, hmc⟩, heq⟩
  · -- the new one is there, or it is a `const` that gives way
    rw [heq, left_of_validChain hvalid]
    rcases hin with hin | ⟨rfl, hin⟩ <;> simp only [Left, List.mem_cons] <;>
      constructor <;> rintro ⟨h₁, h₂⟩ <;> grind
  · -- `mut` takes the place of `const`
    have hkept : ValidChain (((st.qualifiers base).reverse.filter (· ≠ .constant)).reverse ++
        st.qualifiers (st.bare base)) := by
      rw [qualifiers_of_bare (bare_bare st base), List.append_nil]
      exact ⟨List.nodup_reverse.mpr ((List.nodup_reverse.mpr hvalid.nodup).filter _), by simp⟩
    obtain ⟨-, hchain⟩ := qualifiers_wraps _ h (bare_lt_size hbase) hkept
    have hlt := (wraps_spec ((st.qualifiers base).reverse.filter (· ≠ .constant))
      (bare_lt_size hbase)).2.1
    rw [heq, StateM.bind_apply, qualifiers_wrap hlt, hchain,
      qualifiers_of_bare (bare_bare st base)]
    simp only [Left, List.append_nil, List.mem_cons, List.mem_reverse, List.mem_filter]
    grind
  · rw [heq, qualifiers_wrap hbase]
    refine left_of_validChain ⟨List.nodup_cons.mpr ⟨hp, hvalid.nodup⟩, ?_⟩ q
    simp only [List.mem_cons]
    rintro ⟨rfl | hm, hc | hc⟩ <;> grind [hvalid.exclusive]

/-- Qualifiers put on one after the other: what is left of the chain and all of them. -/
theorem qualifyAll_spec (qs : List Qualifier) (h : st.WellQualified) (hbase : base < st.size) :
    let r := qualifyAll qs base st
    r.1 < r.2.size ∧ r.2.bare r.1 = st.bare base ∧
      ∀ q, q ∈ r.2.qualifiers r.1 ↔ Left (qs ++ st.qualifiers base) q := by
  induction qs generalizing st base with
  | nil => exact ⟨hbase, rfl, left_of_validChain (h base)⟩
  | cons p qs ih =>
    obtain ⟨hle, hlt, hbare⟩ := qualify_spec p hbase
    obtain ⟨hlt', hbare', hmem⟩ := ih (wellQualified_qualify h) hlt
    show let r := qualifyAll qs (qualify p base st).1 (qualify p base st).2; _
    refine ⟨hlt', hbare'.trans hbare, fun q => (hmem q).trans ?_⟩
    rw [left_append_of_left (mem_qualifiers_qualify h p hbase)]
    exact left_congr (fun q => by simp [or_left_comm]) q

end StoreM

namespace Operation

open Store

/-- In every store that operations lead to, a type is what its head makes of its constituents, no
chain repeats a qualifier or holds both `mut` and `const`, and what is left of qualifiers put on a
type does not depend on their order. -/
theorem rebuilding_and_qualifying (ops : List Operation) :
    let st := runAll ops .new
    (∀ ty, StoreM.rebuild ty (st.children ty) st = (ty, st)) ∧
    (∀ ty parts, ty < st.size → (st.shape ty).isQualified = false → (∀ c ∈ parts, c < st.size) →
      parts.length = (st.children ty).length →
      let (r, st') := StoreM.rebuild ty parts st
      r < st'.size ∧ (st'.shape r).head = (st.shape ty).head ∧
        st'.children r = parts.map st.bare) ∧
    (∀ ty, (st.qualifiers ty).Nodup ∧
      ¬ (.mutable ∈ st.qualifiers ty ∧ .constant ∈ st.qualifiers ty)) ∧
    (∀ base qs, base < st.size →
      let (r, st') := StoreM.qualifyAll qs base st
      r < st'.size ∧ st'.bare r = st.bare base ∧
        (∀ q, q ∈ st'.qualifiers r ↔ (q ∈ qs ∨ q ∈ st.qualifiers base) ∧
          ¬ (q = .constant ∧ (.mutable ∈ qs ∨ .mutable ∈ st.qualifiers base))) ∧
        ∀ qs', qs'.Perm qs →
          let (r', st'') := StoreM.qualifyAll qs' base st
          ∀ q, q ∈ st''.qualifiers r' ↔ q ∈ st'.qualifiers r) := by
  intro st
  have hregular : st.Regular := regular_runAll ops .new
  have hwell := hregular.wellQualified
  refine ⟨StoreM.rebuild_self hregular, fun ty parts hty hq hparts hlen =>
    StoreM.head_rebuild hregular.noEmptyTuple hty hq hparts hlen,
    fun ty => ⟨(hwell ty).nodup, (hwell ty).exclusive⟩, fun base qs hbase => ?_⟩
  obtain ⟨hlt, hbare, hmem⟩ := StoreM.qualifyAll_spec qs hwell hbase
  refine ⟨hlt, hbare, fun q => (hmem q).trans (by simp [Qualifier.Left]), fun qs' hperm q => ?_⟩
  obtain ⟨-, -, hmem'⟩ := StoreM.qualifyAll_spec qs' hwell hbase
  have hsame : ∀ q, q ∈ qs' ++ st.qualifiers base ↔ q ∈ qs ++ st.qualifiers base := fun q => by
    rw [List.mem_append, List.mem_append, hperm.mem_iff]
  exact (hmem' q).trans ((Qualifier.left_congr hsame q).trans (hmem q).symm)

/-- A pointer that is built again over another target, and one on which `mut` is put after `const`. -/
theorem rebuilding_and_qualifying_pointer :
    let (ty, st) := StoreM.pointer TypeId.i32 .new
    let (again, st') := StoreM.rebuild ty [TypeId.bool] st
    let (varying, st'') := StoreM.qualifyAll [.constant, .mutable] ty st
    (st'.shape again).head = (st.shape ty).head ∧ st'.children again = [st.bare TypeId.bool] ∧
      st''.bare varying = st.bare ty ∧ .mutable ∈ st''.qualifiers varying ∧
      .constant ∉ st''.qualifiers varying := by
  have hparts : ∀ c ∈ (Shape.pointer TypeId.i32).children, c < Store.new.size := by
    simpa [Shape.children] using lt_size_of_prim .i32
  obtain ⟨hlt, -, hchildren⟩ := StoreM.head_intern rfl hparts
  obtain ⟨-, hrebuild, -, hqualify⟩ :=
    rebuilding_and_qualifying [.construct (.pointer TypeId.i32)]
  obtain ⟨-, hhead, hnew⟩ := hrebuild _ [TypeId.bool] hlt (StoreM.isQualified_intern rfl)
    (by simpa using lt_size_of_prim .bool) (congrArg List.length hchildren).symm
  obtain ⟨-, hbare, hmem, -⟩ := hqualify _ [.constant, .mutable] hlt
  refine ⟨hhead, hnew, hbare, (hmem .mutable).mpr (by simp), fun h => ?_⟩
  exact ((hmem .constant).mp h).2 (by simp)

end Operation

end ConstraintTyping
