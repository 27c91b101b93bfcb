import ConstraintTyping.Proofs.Types.Draft
import ConstraintTyping.Proofs.Types.FreshInstance
import ConstraintTyping.Proofs.Types.Materialized

/-!
# Forgetting what is declared

Between two units the declared products and sums are forgotten, while types and traits stay.  What is
forgotten is found through the tables themselves: the links from types to declarations, then the
bodies of types whose link is gone.  This leaves nothing behind because the tables are anchored in
what is declared.  A link goes from a product or sum to the declaration of its name, or from a trait
to a trait, and a type with a body has a link.  Every operation keeps a store anchored, whether it is
refused or not.
-/

namespace ConstraintTyping

theorem DeclKind.kind_ne_trait (k : DeclKind) : k.kind ≠ .trait := by
  cases k <;> exact nofun

namespace Store

variable {st st' : Store} {name : Name} {d ty v : TypeId} {k : DeclKind} {params args : List TypeId}
  {b : Body}

/-! ## What the tables are anchored in -/

/-- A type goes with what it was made from: a product or sum with the declaration of its name, a trait
with a trait. -/
def MadeFrom (st : Store) (ty d : TypeId) : Prop :=
  (st.kind ty = .trait ∧ st.kind d = .trait) ∨
    ∃ name k params args, st.Declares name d k params ∧ st.shape ty = DeclKind.shape k name args

/-- Links lead to what is declared or to traits, and bodies and instances have links. -/
structure Anchored (st : Store) : Prop where
  declares : ∀ {name : Name} {d : TypeId}, st.declared? name = some d →
    st.nominals.declOf[d]? = some d ∧ ∃ k params, st.Declares name d k params
  links : ∀ {ty d : TypeId}, st.nominals.declOf[ty]? = some d → st.MadeFrom ty d
  bodies : ∀ {ty : TypeId}, (st.nominals.bodies[ty]?).isSome = true →
    (∃ k : DeclKind, st.kind ty = k.kind) ∧ (st.nominals.declOf[ty]?).isSome = true
  variants : ∀ {d : TypeId} {args : List TypeId} {v : TypeId},
    st.nominals.variants[(d, args)]? = some v →
      (st.kind d = .trait ∧ st.kind v = .trait) ∨ st.nominals.declOf[v]? = some d
  listed : ∀ {v : TypeId}, v ∈ st.variants → (st.nominals.declOf[v]?).isSome = true

theorem lt_size_of_kind_trait (h : st.kind ty = .trait) : ty < st.size := by
  refine lt_size_of_shape_ne fun hshape => ?_
  rw [Store.kind, hshape] at h
  cases h

theorem lt_size_of_shape_nominal (h : st.shape ty = k.shape name args) : ty < st.size :=
  lt_size_of_shape_ne (by rw [h]; cases k <;> simp [DeclKind.shape])

namespace MadeFrom

theorem lt_size (h : st.MadeFrom ty d) : ty < st.size := by
  rcases h with ⟨hty, -⟩ | ⟨name, k, params, args, -, hty⟩
  · exact lt_size_of_kind_trait hty
  · exact lt_size_of_shape_nominal hty

theorem of_more (h : st.MadeFrom ty d) (hmore : st.DeclaresMore st') : st'.MadeFrom ty d := by
  rcases h with ⟨hty, hd⟩ | ⟨name, k, params, args, hd, hty⟩
  · left
    rw [kind_of_le hmore.le (lt_size_of_kind_trait hty),
      kind_of_le hmore.le (lt_size_of_kind_trait hd)]
    exact ⟨hty, hd⟩
  · exact .inr ⟨name, k, params, args, hmore.declares hd,
      (shape_of_le hmore.le (lt_size_of_shape_nominal hty)).trans hty⟩

/-- What a product or sum was made from is declared under its name. -/
theorem declares (h : st.MadeFrom ty d) (hty : st.shape ty = k.shape name args) :
    ∃ params, st.Declares name d k params := by
  rcases h with ⟨htrait, -⟩ | ⟨name', k', params, args', hd, hty'⟩
  · rw [Store.kind, hty, DeclKind.kind_shape] at htrait
    exact absurd htrait k.kind_ne_trait
  · obtain ⟨rfl, rfl, -⟩ := DeclKind.shape_inj (hty.symm.trans hty')
    exact ⟨params, hd⟩

/-- What a trait was made from is a trait. -/
theorem trait (h : st.MadeFrom ty d) (hty : st.kind ty = .trait) : st.kind d = .trait := by
  rcases h with ⟨-, hd⟩ | ⟨name, k, params, args, -, hshape⟩
  · exact hd
  · rw [Store.kind, hshape, DeclKind.kind_shape] at hty
    exact absurd hty k.kind_ne_trait

end MadeFrom

namespace Anchored

/-- A store stays anchored when what is added is.  Only the link of a trait may change. -/
theorem extend (h : st.Anchored) (hmore : st.DeclaresMore st')
    (hkept : ∀ ty d : TypeId, st.nominals.declOf[ty]? = some d → st'.nominals.declOf[ty]? = some d ∨
      st.kind ty = .trait ∧ (st'.nominals.declOf[ty]?).isSome = true)
    (hdeclares : ∀ (name : Name) (d : TypeId), st'.declared? name = some d → st.declared? name = some d ∨
      st'.nominals.declOf[d]? = some d ∧ ∃ k params, st'.Declares name d k params)
    (hlinks : ∀ ty d : TypeId, st'.nominals.declOf[ty]? = some d →
      st.nominals.declOf[ty]? = some d ∨ st'.MadeFrom ty d)
    (hbodies : ∀ ty : TypeId, (st'.nominals.bodies[ty]?).isSome = true →
      (st.nominals.bodies[ty]?).isSome = true ∨
        (∃ k : DeclKind, st'.kind ty = k.kind) ∧ (st'.nominals.declOf[ty]?).isSome = true)
    (hvariants : ∀ (d : TypeId) (args : List TypeId) (v : TypeId),
      st'.nominals.variants[(d, args)]? = some v → st.nominals.variants[(d, args)]? = some v ∨ st'.nominals.declOf[v]? = some d)
    (hlisted : ∀ v ∈ st'.variants, v ∈ st.variants ∨ (st'.nominals.declOf[v]?).isSome = true) :
    st'.Anchored := by
  have hlink : ∀ ty : TypeId, (st.nominals.declOf[ty]?).isSome = true →
      (st'.nominals.declOf[ty]?).isSome = true := fun ty hty => by
    obtain ⟨d, hd⟩ := Option.isSome_iff_exists.mp hty
    rcases hkept ty d hd with hd | ⟨-, hd⟩
    · rw [hd]
      rfl
    · exact hd
  constructor
  · intro name d hname
    rcases hdeclares name d hname with hname | hd
    · obtain ⟨hself, k, params, hd⟩ := h.declares hname
      refine ⟨(hkept d d hself).resolve_right fun htrait => ?_, k, params, hmore.declares hd⟩
      rw [hd.kind] at htrait
      exact k.kind_ne_trait htrait.1
    · exact hd
  · intro ty d hd
    exact (hlinks ty d hd).elim (fun hd => (h.links hd).of_more hmore) id
  · intro ty hty
    refine (hbodies ty hty).elim (fun hty => ?_) id
    obtain ⟨⟨k, hk⟩, hd⟩ := h.bodies hty
    obtain ⟨d, hdecl⟩ := Option.isSome_iff_exists.mp hd
    refine ⟨⟨k, ?_⟩, hlink ty hd⟩
    rw [kind_of_le hmore.le (h.links hdecl).lt_size]
    exact hk
  · intro d args v hv
    refine (hvariants d args v hv).elim (fun hv => ?_) .inr
    have htrait : st.kind d = .trait → st.kind v = .trait →
        st'.kind d = .trait ∧ st'.kind v = .trait := fun hd hv => by
      rw [kind_of_le hmore.le (lt_size_of_kind_trait hd),
        kind_of_le hmore.le (lt_size_of_kind_trait hv)]
      exact ⟨hd, hv⟩
    rcases h.variants hv with ⟨hd, hv⟩ | hd
    · exact .inl (htrait hd hv)
    · exact (hkept v d hd).elim .inr fun hv => .inl (htrait ((h.links hd).trait hv.1) hv.1)
  · intro v hv
    exact (hlisted v hv).elim (fun hv => hlink v (h.listed hv)) id

/-! ## Steps -/

/-- Types that are added do not matter. -/
theorem of_nominals (h : st.Anchored) (hle : st ≤ st') (hnom : st'.nominals = st.nominals) :
    st'.Anchored := by
  refine h.extend (Advances.of_nominals hle hnom).declaresMore ?_ ?_ ?_ ?_ ?_ ?_ <;>
    simp only [Store.declared?, Store.variants, hnom] <;> tauto

/-- Bodies change, and a new one belongs to a product or sum with a link. -/
theorem of_bodies (h : st.Anchored) (hsame : SameButBodies st st')
    (hlisted : st'.variants = st.variants)
    (hnew : ∀ ty : TypeId, (st'.nominals.bodies[ty]?).isSome = true →
      (st.nominals.bodies[ty]?).isSome = true ∨
        (∃ k : DeclKind, st.kind ty = k.kind) ∧ (st.nominals.declOf[ty]?).isSome = true) :
    st'.Anchored := by
  have hkind : st'.kind = st.kind := funext fun ty => by rw [Store.kind, Store.kind, hsame.shape]
  refine h.extend hsame.declaresMore ?_ ?_ ?_ ?_ ?_ ?_ <;>
    simp only [hsame.declared?, hsame.declOf, hsame.variants, hlisted, hkind] <;> tauto

theorem setBody (h : st.Anchored) (hkind : st.kind ty = k.kind)
    (hlink : (st.nominals.declOf[ty]?).isSome = true) (b : Body) : (st.setBody ty b).Anchored := by
  refine h.of_bodies (sameButBodies_setBody st ty b) rfl fun x hx => ?_
  rw [bodies_setBody] at hx
  split at hx
  · next heq => exact .inr (heq ▸ ⟨⟨k, hkind⟩, hlink⟩)
  · exact .inl hx

theorem bindParent (h : st.Anchored) (tag sum : TypeId) : (st.bindParent tag sum).Anchored := by
  cases hbody : st.productBody? tag with
  | none => rwa [bindParent_of_none hbody]
  | some body =>
    rw [Store.bindParent, hbody]
    have hsome : (st.nominals.bodies[tag]?).isSome = true := by rw [productBody?_eq_some.mp hbody]; rfl
    obtain ⟨⟨k, hk⟩, hlink⟩ := h.bodies hsome
    exact h.setBody hk hlink _

theorem ensureBody (h : st.Anchored) (hkind : st.kind ty = k.kind)
    (hlink : (st.nominals.declOf[ty]?).isSome = true) (b : Body) :
    (DeclM.ensureBody ty b st).Anchored := by
  unfold DeclM.ensureBody
  split
  · exact h
  · exact h.setBody hkind hlink b

/-- A name that is not declared has no instances, so that no link is taken over. -/
theorem declare (h : st.Anchored) (hnew : st.declared? name = none)
    (hshape : st.shape d = k.shape name params) : (st.declare name d).Anchored := by
  have hdecl : (st.declare name d).Declares name d k params :=
    ⟨(declared?_declare st name name d).trans (if_pos rfl), hshape⟩
  refine h.extend (declaresMore_declare hnew) (fun ty d' hd' => ?_) (fun name' d' hname' => ?_)
    (fun ty d' hd' => ?_) (fun _ => .inl) (fun _ _ _ => .inl) (fun _ => .inl)
  · rw [declOf_declare]
    split
    · next heq =>
      subst heq
      obtain ⟨_, hd⟩ := (h.links hd').declares hshape
      exact absurd hd.declared (by rw [hnew]; exact nofun)
    · exact .inl hd'
  · rw [declared?_declare] at hname'
    split at hname'
    · next heq =>
      obtain rfl := Option.some.inj hname'
      exact .inr ⟨(declOf_declare st name d d).trans (if_pos rfl), k, params, heq ▸ hdecl⟩
    · exact .inl hname'
  · rw [declOf_declare] at hd'
    split at hd'
    · next heq =>
      obtain rfl := Option.some.inj hd'
      exact .inr (.inr ⟨name, k, params, params, hdecl, heq ▸ hshape⟩)
    · exact .inl hd'

theorem declareTrait (h : st.Anchored) (hkind : st.kind d = .trait) : (st.declareTrait d).Anchored := by
  have hdeclOf : ∀ ty : TypeId, (st.declareTrait d).nominals.declOf[ty]? =
      if d = ty then some d else st.nominals.declOf[ty]? := fun ty => by
    simp [Store.declareTrait, Std.HashMap.getElem?_insert]
  refine h.extend ⟨le_refl st, fun hd => ⟨hd.declared, hd.shape⟩⟩ (fun ty d' hd' => ?_)
    (fun _ _ => .inl) (fun ty d' hd' => ?_) (fun _ => .inl) (fun _ _ _ => .inl) (fun _ => .inl)
  · rw [hdeclOf]
    split
    · next heq => exact .inr ⟨heq ▸ hkind, rfl⟩
    · exact .inl hd'
  · rw [hdeclOf] at hd'
    split at hd'
    · next heq =>
      obtain rfl := Option.some.inj hd'
      exact .inr (.inl ⟨heq ▸ hkind, hkind⟩)
    · exact .inl hd'

/-- An instance is entered under what it was made from. -/
theorem enterVariant (h : st.Anchored) (hv : st.MadeFrom v d) (args : List TypeId) :
    (DeclM.enterVariant d args v st).Anchored := by
  have hdeclOf : ∀ ty : TypeId, (DeclM.enterVariant d args v st).nominals.declOf[ty]? =
      if v = ty then some d else st.nominals.declOf[ty]? := fun ty => by
    show (st.nominals.declOf.insert v d)[ty]? = _
    rw [Std.HashMap.getElem?_insert]
    simp only [beq_iff_eq]
  have hmore : st.DeclaresMore (DeclM.enterVariant d args v st) :=
    ⟨le_refl st, fun hd => ⟨hd.declared, hd.shape⟩⟩
  refine h.extend hmore (fun ty d' hd' => ?_) (fun _ _ => .inl) (fun ty d' hd' => ?_)
    (fun _ => .inl) (fun d' args' w hw => ?_) (fun w hw => ?_)
  · rw [hdeclOf]
    split
    · next heq =>
      subst heq
      rcases hv with ⟨htrait, -⟩ | ⟨name, k, params, args', hd, hshape⟩
      · exact .inr ⟨htrait, rfl⟩
      · obtain ⟨params', hd''⟩ := (h.links hd').declares hshape
        rw [(hd.unique hd'').1]
        exact .inl rfl
    · exact .inl hd'
  · rw [hdeclOf] at hd'
    split at hd'
    · next heq =>
      obtain rfl := Option.some.inj hd'
      exact .inr (heq ▸ hv.of_more hmore)
    · exact .inl hd'
  · change (st.nominals.variants.insert (d, args) v)[(d', args')]? = some w at hw
    rw [Std.HashMap.getElem?_insert] at hw
    split at hw
    · next heq =>
      obtain ⟨rfl, -⟩ := Prod.mk.inj (eq_of_beq heq)
      rw [hdeclOf, if_pos (Option.some.inj hw)]
      exact .inr rfl
    · exact .inl hw
  · have hlist : (DeclM.enterVariant d args v st).variants = st.variants ++ [v] := Array.toList_push
    rw [hlist, List.mem_append, List.mem_singleton] at hw
    refine hw.imp_right ?_
    rintro rfl
    rw [hdeclOf, if_pos rfl]
    rfl

/-- What is behind a type is a declared product or sum, or it is a trait behind a trait. -/
theorem madeFrom_of_declOf? (h : st.Anchored) (hd : st.declOf? ty = some d) : st.MadeFrom ty d := by
  have hnamed : ∀ {name : Name} {k : DeclKind} {args : List TypeId}, st.shape ty = k.shape name args →
      (st.declared? name).filter (fun decl => st.kind decl = st.kind ty) = some d →
        st.MadeFrom ty d := by
    intro name k args hty hfound
    obtain ⟨hname, hkind⟩ := Option.filter_eq_some_iff.mp hfound
    obtain ⟨-, k', params, hdecl⟩ := h.declares hname
    have hkind : st.kind d = st.kind ty := by simpa using hkind
    rw [hdecl.kind, Store.kind, hty, DeclKind.kind_shape] at hkind
    obtain rfl := DeclKind.kind_injective hkind
    exact .inr ⟨name, k', params, args, hdecl, hty⟩
  unfold declOf? at hd
  split at hd
  · next d' hd' =>
    obtain rfl := Option.some.inj hd
    exact h.links hd'
  · split at hd
    · next hty => exact hnamed (k := .product) hty hd
    · next hty => exact hnamed (k := .sum) hty hd
    · cases hd

/-- An instance of a declared product or sum is entered and gets its body. -/
theorem enterWith (h : st.Anchored) (hd : st.Declares name d k params)
    (hargs : ∀ a ∈ args, a < st.size) (b : Body) :
    (DeclM.enterWith d args (k.shape name args) b st).2.Anchored := by
  obtain ⟨-, hshape⟩ := StoreM.intern_spec (s := k.shape name args) (by simpa using hargs)
  have hle := StoreM.intern_le (k.shape name args) st
  rw [TypeTable.key, if_neg (by simp), DeclKind.map_shape] at hshape
  unfold DeclM.enterWith
  have hmore : st.DeclaresMore (StoreM.intern (k.shape name args) st).2 :=
    (Advances.of_nominals hle rfl).declaresMore
  have hmade : (StoreM.intern (k.shape name args) st).2.MadeFrom
      (StoreM.intern (k.shape name args) st).1 d := .inr ⟨name, k, params, _, hmore.declares hd, hshape⟩
  refine ((h.of_nominals hle rfl).enterVariant hmade args).ensureBody (k := k) ?_ ?_ b
  · show ((StoreM.intern (k.shape name args) st).2.shape _).kind = _
    rw [hshape, DeclKind.kind_shape]
  · show (((StoreM.intern (k.shape name args) st).2.nominals.declOf.insert _ d)[_]?).isSome = true
    rw [Std.HashMap.getElem?_insert_self]
    rfl

/-- Making instances at types of the store keeps it anchored. -/
theorem admits (args : List TypeId) :
    Admits (fun st => st.Anchored ∧ ∀ a ∈ args, a < st.size) args where
  replace {st mapping ty} h := by
    obtain ⟨hle, hnom⟩ := StoreM.builds_substituteAll mapping ty st
    exact ⟨h.1.of_nominals hle hnom, fun a ha => lt_size_of_le hle (h.2 a ha)⟩
  bindParent {st tag sum} h := by
    refine ⟨h.1.bindParent tag sum, fun a ha => ?_⟩
    rw [(sameButBodies_bindParent st tag sum).size]
    exact h.2 a ha
  enter {st ty d b k} h hd _ _ _ hkind := by
    obtain ⟨name, params, hdecl⟩ : ∃ name params, st.Declares name d k params := by
      rcases h.1.madeFrom_of_declOf? hd with ⟨-, htrait⟩ | ⟨name, k', params, _, hdecl, -⟩
      · exact absurd (hkind.symm.trans htrait) k.kind_ne_trait
      · obtain rfl := DeclKind.kind_injective (hdecl.kind.symm.trans hkind)
        exact ⟨name, params, hdecl⟩
    rw [hdecl.shape, DeclKind.variantShape_shape]
    refine ⟨h.1.enterWith hdecl h.2 b, fun a ha => ?_⟩
    unfold DeclM.enterWith
    rw [(sameButBodies_ensureBody _ b _).size]
    exact lt_size_of_le (StoreM.intern_le _ st) (h.2 a ha)
  enterOther {st ty d} h hd hlen _ hkind := by
    have htrait : st.kind d = .trait := by
      rcases h.1.madeFrom_of_declOf? hd with ⟨-, htrait⟩ | ⟨_, k, _, _, hdecl, -⟩
      · exact htrait
      · exact absurd hdecl.kind (hkind k)
    have hle := StoreM.intern_le (DeclM.variantShape (st.shape d) args) st
    refine ⟨?_, fun a ha => lt_size_of_le hle (h.2 a ha)⟩
    refine (h.1.of_nominals hle rfl).enterVariant (.inl ⟨?_, ?_⟩) args
    · -- an instance of a trait has as many arguments as the trait, so there is a subject
      obtain ⟨name, subject, rest, hshape⟩ : ∃ name subject rest,
          st.shape d = .trait name subject rest := by
        rw [Store.kind] at htrait
        cases hs : st.shape d <;> rw [hs] at htrait <;> cases htrait
        exact ⟨_, _, _, rfl⟩
      rw [Store.nominalArgs, hshape] at hlen
      obtain ⟨a, as, rfl⟩ := List.exists_cons_of_length_eq_add_one hlen.symm
      have hspec := (StoreM.intern_spec (s := .trait name a as) h.2).2
      rw [hshape]
      show ((StoreM.intern (.trait name a as) st).2.shape (StoreM.intern (.trait name a as) st).1).kind = _
      rw [hspec, TypeTable.key, if_neg (by simp [Shape.isQualified]), Shape.kind_map]
      rfl
    · rw [kind_of_le hle (lt_size_of_kind_trait htrait)]
      exact htrait

/-- A product or sum without its declaration has lost its link, and so its body. -/
theorem clearDeclared (h : st.Anchored) : st.clearDeclared.Anchored := by
  have hmade : ∀ {ty d : TypeId}, st.clearDeclared.nominals.declOf[ty]? = some d →
      st.kind ty = .trait ∧ st.kind d = .trait := by
    intro ty d hd
    obtain ⟨hd, hforgotten⟩ := declOf_clearDeclared.mp hd
    exact (h.links hd).resolve_right fun ⟨name, _, _, _, hdecl, _⟩ => hforgotten name hdecl.declared
  constructor
  · intro name d hname
    rw [declared?_clearDeclared] at hname
    cases hname
  · exact fun hd => .inl (hmade hd)
  · intro ty hty
    obtain ⟨b, hb⟩ := Option.isSome_iff_exists.mp hty
    obtain ⟨hbody, hkept⟩ := bodies_clearDeclared hb
    exact ⟨(h.bodies (by rw [hbody]; rfl)).1, hkept⟩
  · intro d args v hv
    obtain ⟨hv, hforgotten⟩ := variants_clearDeclared.mp hv
    exact (h.variants hv).imp id fun hd => declOf_clearDeclared.mpr ⟨hd, hforgotten⟩
  · exact mem_variants_clearDeclared

/-! ## Where nothing is declared -/

section Undeclared

variable (h : st.Anchored) (hnone : ∀ name, st.declared? name = none)
include h hnone

theorem declOf?_of_none (hd : st.declOf? ty = some d) : st.kind ty = .trait ∧ st.kind d = .trait :=
  (h.madeFrom_of_declOf? hd).resolve_right fun ⟨name, _, _, _, hdecl, _⟩ => by
    have hname := hdecl.declared
    rw [hnone] at hname
    cases hname

theorem link_of_none (hd : st.nominals.declOf[ty]? = some d) :
    st.kind ty = .trait ∧ st.kind d = .trait :=
  h.declOf?_of_none hnone (by rw [Store.declOf?, hd])

theorem bodies_of_none (ty : TypeId) : st.nominals.bodies[ty]? = none := by
  by_contra hbody
  obtain ⟨⟨k, hk⟩, hlink⟩ := h.bodies (Option.isSome_iff_ne_none.mpr hbody)
  obtain ⟨d, hd⟩ := Option.isSome_iff_exists.mp hlink
  exact k.kind_ne_trait (hk.symm.trans (h.link_of_none hnone hd).1)

theorem variants_of_none (hv : st.nominals.variants[(d, args)]? = some v) :
    st.kind d = .trait ∧ st.kind v = .trait :=
  (h.variants hv).elim id fun hd => (h.link_of_none hnone hd).symm

theorem listed_of_none (hv : v ∈ st.variants) : st.kind v = .trait := by
  obtain ⟨d, hd⟩ := Option.isSome_iff_exists.mp (h.listed hv)
  exact (h.link_of_none hnone hd).1

end Undeclared

end Anchored

theorem lt_size_of_mem_nominalArgs {a : TypeId} (h : a ∈ st.nominalArgs ty) : a < st.size := by
  rcases Nat.lt_or_ge ty st.size with hlt | hge
  · exact lt_size_of_mem_children hlt (mem_children_of_mem_nominalArgs h)
  · rw [Store.nominalArgs, shape_of_ge hge] at h
    cases h

theorem anchored_new : Store.new.Anchored where
  declares h := by simp [declared?_new] at h
  links h := by simp [Store.new] at h
  bodies h := by simp [Store.new] at h
  variants h := by simp [Store.new] at h
  listed h := by simp [Store.variants, Store.new] at h

end Store

/-! ## Runs -/

namespace Operation

open Store StoreM DeclM

variable {st : Store} {op : Operation} {ops : List Operation}

/-- Instances are asked for at types of the store. -/
def ArgsWithin (st : Store) : Operation → Prop
  | variant _ _ args | instantiate _ args => ∀ a ∈ args, a < st.size
  | _ => True

/-- Whatever is done, and refused or not, a store stays anchored. -/
theorem anchored_run (h : st.Anchored) (hop : op.ArgsWithin st) : (op.run st).Anchored := by
  have hdefine : ∀ {st : Store} {d : TypeId} {b : Body} {k : DeclKind}, st.Anchored →
      st.isDeclaration d = true → st.kind d = k.kind → (st.setBody d b).Anchored :=
    fun h hself hkind => h.setBody hkind (by rw [eq_of_beq hself]; rfl) _
  have hbuilt : ∀ {op : Operation}, op.Builds → (op.run st).Anchored := fun hbuilds =>
    h.of_nominals (hbuilds.run st).1 (hbuilds.run st).2
  cases op with
  | construct description => exact hbuilt (.construct description)
  | freshVar => exact hbuilt .freshVar
  | rebuild ty parts => exact hbuilt (.rebuild ty parts)
  | mapVars f ty => exact hbuilt (.mapVars f ty)
  | replaceVar ty var replacement => exact hbuilt (.replaceVar ty var replacement)
  | substituteAll mapping ty => exact hbuilt (.substituteAll mapping ty)
  | instantiateFresh ty => exact hbuilt (.instantiateFresh ty)
  | declare kind name params =>
    refine (gives_declare_of (E := Anchored) (Q := fun _ => Anchored) kind name params (fun _ => h)
      fun st₁ d vars hle hnom hnew _ hshape _ => ?_).end fun _ _ h => h
    exact (h.of_nominals hle hnom).declare (by rw [Store.declared?, hnom]; exact hnew) hshape
  | declareTrait name params =>
    obtain ⟨st₁, d, ⟨hle, hnom⟩, -, hkind, heq⟩ := exists_declareTrait name params st
    show (StoreM.declareTrait name params st).2.Anchored
    rw [heq]
    exact (h.of_nominals hle hnom).declareTrait hkind
  | defineProduct decl fields names => exact preserves_defineProduct hdefine decl fields names st h
  | defineSum sum tags => exact preserves_defineSum hdefine (fun h => h.bindParent _ _) sum tags st h
  | variant parent parts args =>
    exact (preserves_variant (Anchored.admits args) parent parts st ⟨h, hop⟩).1
  | instantiate ty args => exact (preserves_instantiate (Anchored.admits args) ty st ⟨h, hop⟩).1
  | instantiateAtFresh ty =>
    have hgives : Gives (DeclM.instantiateAtFresh ty) st Anchored fun _ => Anchored := by
      refine gives_get_bind ?_
      split
      · exact gives_throw h
      next decl _ =>
      refine (gives_freshVars (E := fun _ => False) (st.nominalArgs decl) st).mono
        (fun _ hf => hf.elim) (fun _ _ h => h) |>.bind fun args st₁ hnew => ?_
      obtain ⟨⟨hle, hnom⟩, hnew, -⟩ := hnew
      refine (gives_of_preserves (preserves_instantiate (Anchored.admits args) decl)
        ⟨h.of_nominals hle hnom, fun a ha => ?_⟩).mono (fun _ h => h.1) fun _ _ h => h.1
      obtain ⟨n, hn⟩ := hnew.fresh a ha
      exact lt_size_of_shape_var hn
    exact hgives.end fun _ _ h => h
  | materialize ty =>
    have hgives : Gives (DeclM.materialize ty) st Anchored fun _ => Anchored := by
      refine gives_get_bind ?_
      split
      · exact gives_pure h
      · refine (gives_of_preserves (preserves_instantiate (Anchored.admits _) ty)
          ⟨h, fun a ha => ?_⟩).mono (fun _ h => h.1) fun _ _ h => h.1
        exact lt_size_of_mem_nominalArgs ha
    exact hgives.end fun _ _ h => h
  | clearDeclared => exact h.clearDeclared

theorem anchored_runAll (h : st.Anchored) (hops : Along ArgsWithin ops st) :
    (runAll ops st).Anchored := by
  induction ops generalizing st with
  | nil => exact h
  | cons op ops ih => exact ih (anchored_run h hops.1) hops.2

end Operation

end ConstraintTyping
