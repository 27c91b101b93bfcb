import ConstraintTyping.Proofs.Types.Keyed

/-!
# Instances that are listed once

Instances are entered under the arguments as they are given, and an instance is the type of its
declaration at these arguments without their qualifiers.  So one type can be entered under several
lists of arguments, and then it is listed several times; it can even be the declaration itself.  As
long as instances are asked for at arguments without qualifiers, none of this happens
(`Store.Distinct`).  Traits are left out: two declarations of one trait share their instances.
-/

namespace ConstraintTyping

open Store StoreM DeclM

namespace Store

variable {st st' : Store} {name : Name} {d v a : TypeId} {k : DeclKind} {params args : List TypeId}

/-- A type of the store without qualifiers. -/
def Bare (st : Store) (ty : TypeId) : Prop := ty < st.size ∧ st.bare ty = ty

theorem Bare.of_le (h : st.Bare a) (hle : st ≤ st') : st'.Bare a :=
  ⟨lt_size_of_le hle h.1, (bare_of_le hle h.1).trans h.2⟩

theorem bare_of_isVar (h : st.isVar a = true) : st.Bare a := by
  obtain ⟨x, hx⟩ := Shape.isVar_iff.mp h
  exact ⟨lt_size_of_isVar h, bare_of_not_qualified (by rw [hx]; rfl)⟩

theorem bare_of_mem_nominalArgs {ty : TypeId} (h : a ∈ st.nominalArgs ty) : st.Bare a := by
  have hq : (st.shape ty).isQualified = false := by
    rw [Store.nominalArgs] at h
    cases hs : st.shape ty <;> rw [hs] at h <;> first | rfl | cases h
  have hlt : ty < st.size := by
    refine lt_size_of_shape_ne fun hs => ?_
    rw [Store.nominalArgs, hs] at h
    cases h
  exact ⟨lt_size_of_mem_nominalArgs h, bare_of_mem_children hlt hq (mem_children_of_mem_nominalArgs h)⟩

theorem map_bare_of_bare (h : ∀ a ∈ args, st.Bare a) : args.map st.bare = args :=
  (List.map_congr_left fun a ha => (h a ha).2).trans (List.map_id args)

/-- A keyed store in which every product and sum that is listed as an instance is entered under the
arguments that it has, is not its declaration, and is listed once. -/
structure Distinct (st : Store) : Prop where
  keyed : st.Keyed
  entered : ∀ v ∈ st.variants, ∀ (k : DeclKind) (name : Name) (args : List TypeId),
    st.shape v = k.shape name args →
      ∃ d, st.declared? name = some d ∧ st.nominals.variants[(d, args)]? = some v ∧ v ≠ d
  once : (st.variants.filter fun v => st.kind v ≠ .trait).Nodup

theorem distinct_new : Store.new.Distinct where
  keyed := keyed_new
  entered v hv := by simp [Store.variants, Store.new] at hv
  once := by simp [Store.variants, Store.new]

theorem Anchored.lt_size_of_mem_variants (h : st.Anchored) (hv : v ∈ st.variants) : v < st.size := by
  obtain ⟨d, hd⟩ := Option.isSome_iff_exists.mp (h.listed hv)
  exact (h.links hd).lt_size

/-- Where the same instances are listed, and what is declared and entered for them is the same. -/
theorem Distinct.of_same (h : st.Distinct) (h' : st'.Keyed) (hle : st ≤ st')
    (hlisted : st'.variants = st.variants)
    (hdeclared : ∀ {name d}, st.declared? name = some d → st'.declared? name = some d)
    (hvariants : st'.nominals.variants = st.nominals.variants) : st'.Distinct where
  keyed := h'
  entered v hv k name args hshape := by
    rw [hlisted] at hv
    rw [shape_of_le hle (h.keyed.anchored.lt_size_of_mem_variants hv)] at hshape
    obtain ⟨d, hd, hentered, hne⟩ := h.entered v hv k name args hshape
    exact ⟨d, hdeclared hd, by rw [hvariants]; exact hentered, hne⟩
  once := by
    rw [hlisted]
    refine (List.filter_congr fun v hv => ?_) ▸ h.once
    rw [kind_of_le hle (h.keyed.anchored.lt_size_of_mem_variants hv)]

/-- A new instance of a product or sum is entered at arguments without qualifiers. -/
theorem Distinct.enter (h : st.Distinct) (hd : st.Declares name d k params)
    (hinst : st.IsInstance name k args v) (hargs : ∀ a ∈ args, st.Bare a) (hne : params ≠ args)
    (hnew : st.nominals.variants[(d, args)]? = none)
    (h' : (enterVariant d args v st).Keyed) : (enterVariant d args v st).Distinct := by
  have hshape : st.shape v = k.shape name args := by rw [hinst.shape, map_bare_of_bare hargs]
  have hfresh : v ∉ st.variants := fun hv => by
    obtain ⟨d', hd', hentered, -⟩ := h.entered v hv k name args hshape
    obtain rfl := Option.some.inj (hd.declared.symm.trans hd')
    rw [hnew] at hentered
    cases hentered
  refine ⟨h', fun w hw k' name' args' hshape' => ?_, ?_⟩
  · rw [variants_enterVariant, List.mem_append, List.mem_singleton] at hw
    have hget : ∀ key : TypeId × List TypeId,
        (enterVariant d args v st).nominals.variants[key]? =
          if (d, args) == key then some v else st.nominals.variants[key]? := fun key =>
      Std.HashMap.getElem?_insert
    rcases hw with hw | rfl
    · obtain ⟨d', hd', hentered, hne'⟩ := h.entered w hw k' name' args' hshape'
      refine ⟨d', hd', ?_, hne'⟩
      rw [hget, if_neg]
      · exact hentered
      · intro heq
        rw [← eq_of_beq heq, hnew] at hentered
        cases hentered
    · obtain ⟨rfl, rfl, rfl⟩ := DeclKind.shape_inj (hshape.symm.trans hshape')
      refine ⟨d, hd.declared, ?_, ?_⟩
      · rw [hget, if_pos (beq_self_eq_true _)]
      · rintro rfl
        exact hne (DeclKind.shape_inj (hd.shape.symm.trans hshape)).2.2
  · rw [variants_enterVariant, List.filter_append]
    refine List.nodup_append.mpr ⟨h.once, (List.nodup_singleton v).filter _, ?_⟩
    rintro w hw _ hv rfl
    exact hfresh (List.mem_singleton.mp (List.mem_of_mem_filter hv) ▸ List.mem_of_mem_filter hw)

/-- Operations that ask for instances at arguments without qualifiers list them once. -/
theorem kept_distinct : Operation.Kept Distinct Bare where
  anchored h := h.keyed.anchored
  fits_lt h := h.1
  fits_of_le := Bare.of_le
  fits_var := bare_of_isVar
  fits_arg := bare_of_mem_nominalArgs
  nominals h hle hnom :=
    h.of_same (kept_keyed.nominals h.keyed hle hnom) hle (by rw [Store.variants, hnom]; rfl)
      (fun hd => by rw [Store.declared?, hnom]; exact hd) (by rw [hnom])
  declare {st name d k params} h hnew hshape hvars h' := by
    refine h.of_same (kept_keyed.declare h.keyed hnew hshape hvars h') (le_refl st) rfl
      (fun {name' d'} hd => ?_) rfl
    rw [declared?_declare, if_neg]
    · exact hd
    · rintro rfl
      rw [hnew] at hd
      cases hd
  declareTrait {st _} h h' :=
    h.of_same (kept_keyed.declareTrait h.keyed h') (le_refl st) rfl id rfl
  bodies h hsame hlisted h' :=
    h.of_same (kept_keyed.bodies h.keyed hsame hlisted h') hsame.le hlisted
      (fun hd => (hsame.declared? _).trans hd) hsame.variants
  enter h hd hinst hargs hne hnew h' :=
    h.enter hd hinst hargs hne hnew
      (kept_keyed.enter h.keyed hd hinst (fun a ha => (hargs a ha).1) hne hnew h')
  enterTrait {st d v args} h htrait hv h' := by
    refine ⟨kept_keyed.enterTrait h.keyed htrait hv h', fun w hw k name args' hshape => ?_, ?_⟩
    · rw [variants_enterVariant, List.mem_append, List.mem_singleton] at hw
      rcases hw with hw | rfl
      · obtain ⟨d', hd', hentered, hne⟩ := h.entered w hw k name args' hshape
        refine ⟨d', hd', ?_, hne⟩
        show (st.nominals.variants.insert (d, args) v)[(d', args')]? = some w
        rw [Std.HashMap.getElem?_insert, if_neg]
        · exact hentered
        · intro heq
          obtain ⟨rfl, -⟩ := Prod.mk.inj (eq_of_beq heq)
          obtain ⟨-, k', params, hd⟩ := h.keyed.anchored.declares hd'
          exact k'.kind_ne_trait (hd.kind.symm.trans htrait)
      · have hshape : st.shape w = k.shape name args' := hshape
        rw [Store.kind, hshape, DeclKind.kind_shape] at hv
        exact absurd hv k.kind_ne_trait
    · have hdrop : ([v].filter fun v => (enterVariant d args v st).kind v ≠ .trait) = [] := by
        simp [show (enterVariant d args v st).kind v = .trait from hv]
      rw [variants_enterVariant, List.filter_append]
      simpa [show ∀ w, (enterVariant d args v st).kind w = st.kind w from fun _ => rfl, hv] using h.once
  clear {st} h h' := by
    have htrait : ∀ v ∈ st.clearDeclared.variants, st.clearDeclared.kind v = .trait := fun v hv =>
      h'.listed_of_none (declared?_clearDeclared st) hv
    refine ⟨kept_keyed.clear h.keyed h', fun v hv k name args hshape => ?_, ?_⟩
    · have hkind := htrait v hv
      rw [Store.kind, hshape, DeclKind.kind_shape] at hkind
      exact absurd hkind k.kind_ne_trait
    · rw [List.filter_eq_nil_iff.mpr fun v hv => by simp [htrait v hv]]
      exact List.nodup_nil

/-- What is listed as an instance is not declared. -/
theorem Distinct.not_declared (h : st.Distinct) (hv : v ∈ st.variants) (name : Name) :
    st.declared? name ≠ some v := by
  intro hname
  obtain ⟨-, k, params, hd⟩ := h.keyed.anchored.declares hname
  obtain ⟨d, hd', -, hne⟩ := h.entered v hv k name params hd.shape
  exact hne (Option.some.inj (hname.symm.trans hd'))

end Store

end ConstraintTyping
