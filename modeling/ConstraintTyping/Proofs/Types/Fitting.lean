import ConstraintTyping.Proofs.Renaming.Requests
import ConstraintTyping.Proofs.Types.Keyed

/-!
# Bodies that fit their types

Making an instance goes from a tag to its sum and from a sum to its tags, with the same arguments.
It comes to a halt where one of them takes another number of arguments.  In a store that fits this
does not happen: the sum that a body names, and the tags that it lists, take as many arguments as the
type that the body belongs to.  Every operation keeps a store fitting, as long as the bodies that it
is given fit (`Operation.Suitable`).
-/

namespace ConstraintTyping

open Store StoreM DeclM

variable {st st' : Store} {name : Name} {d ty v tag sum : TypeId} {k : DeclKind} {n : Nat}
  {params args parts : List TypeId} {b : Body}

/-- A product or sum whose declaration takes a number of arguments. -/
def Store.Takes (st : Store) (k : DeclKind) (n : Nat) (ty : TypeId) : Prop :=
  ∃ name args d params, st.shape ty = k.shape name args ∧ st.Declares name d k params ∧
    params.length = n

/-- A body that fits a type of a kind that takes a number of arguments. -/
inductive Body.Suits (st : Store) (n : Nat) : DeclKind → Body → Prop
  | product {body : ProductBody} (fields : ∀ f ∈ body.fields, f < st.size)
      (parent : ∀ sum ∈ body.parent, st.Takes .sum n sum) : Suits st n .product (.product body)
  | sum {tags : List TypeId} (each : ∀ tag ∈ tags, st.Takes .product n tag) :
      Suits st n .sum (.sum tags)

namespace Store

namespace Takes

theorem lt_size (h : st.Takes k n ty) : ty < st.size := by
  obtain ⟨name, args, d, params, hshape, -⟩ := h
  exact lt_size_of_shape_nominal hshape

theorem of_more (h : st.Takes k n ty) (hmore : st.DeclaresMore st') : st'.Takes k n ty := by
  obtain ⟨name, args, d, params, hshape, hd, hlen⟩ := h
  exact ⟨name, args, d, params,
    (shape_of_le hmore.le (lt_size_of_shape_nominal hshape)).trans hshape, hmore.declares hd, hlen⟩

end Takes

theorem IsInstance.takes (h : st.IsInstance name k args v) (hd : st.Declares name d k params) :
    st.Takes k params.length v :=
  ⟨name, _, d, params, h.shape, hd, rfl⟩

/-- What is behind a type that takes arguments is the declaration of its name. -/
theorem Anchored.declOf?_of_declares (h : st.Anchored) (hty : st.shape ty = k.shape name args)
    (hd : st.Declares name d k params) : st.declOf? ty = some d := by
  rw [h.declOf?_eq hty, hd.declared, Option.filter_some_pos]
  simpa using hd.kind

theorem Accrues.declaresMore (h : st.Accrues st') : st.DeclaresMore st' :=
  ⟨h.le, fun hd => ⟨(h.declared? _).trans hd.declared,
    (shape_of_le h.le hd.lt_size).trans hd.shape⟩⟩

end Store

theorem Body.Suits.of_more (h : b.Suits st n k) (hmore : st.DeclaresMore st') : b.Suits st' n k := by
  cases h with
  | product fields parent =>
    exact .product (fun f hf => lt_size_of_le hmore.le (fields f hf))
      fun sum hsum => (parent sum hsum).of_more hmore
  | sum each => exact .sum fun tag htag => (each tag htag).of_more hmore

namespace Store

theorem declOf_enterWith {shape : Shape TypeId} :
    (enterWith d args shape b st).2.nominals.declOf[ty]? =
      if (enterWith d args shape b st).1 = ty then some d else st.nominals.declOf[ty]? := by
  rw [enterWith, (sameButBodies_ensureBody _ b _).declOf]
  show (st.nominals.declOf.insert (intern shape st).1 d)[ty]? = _
  rw [Std.HashMap.getElem?_insert]
  simp only [beq_iff_eq]

theorem bodies_enterWith {shape : Shape TypeId} :
    (enterWith d args shape b st).2.nominals.bodies[ty]? =
      (st.nominals.bodies[ty]?).or (if (enterWith d args shape b st).1 = ty then some b else none) := by
  rw [enterWith, bodies_ensureBody]
  rfl

/-- A store in which instances have as many arguments as their declarations, and bodies that fit. -/
structure Fitting (st : Store) : Prop where
  keyed : st.Keyed
  links : ∀ {ty d : TypeId}, st.nominals.declOf[ty]? = some d →
    (st.nominals.declOf[d]?).isSome = true ∧ (st.nominalArgs ty).length = (st.nominalArgs d).length
  bodies : ∀ {ty : TypeId} {b : Body}, st.nominals.bodies[ty]? = some b →
    ∃ k : DeclKind, st.kind ty = k.kind ∧ b.Suits st (st.nominalArgs ty).length k
  bodied : ∀ {name : Name} {d v : TypeId} {k : DeclKind} {params args : List TypeId},
    st.Declares name d k params → st.nominals.variants[(d, args)]? = some v →
      (st.nominals.bodies[v]?).isSome = true

theorem fitting_new : Store.new.Fitting where
  keyed := keyed_new
  links h := by simp [Store.new] at h
  bodies h := by simp [Store.new] at h
  bodied hd := by simpa [declared?_new] using hd.declared

namespace Fitting

theorem anchored (h : st.Fitting) : st.Anchored := h.keyed.anchored

/-- A store that fits does so when what is added does. -/
theorem extend (h : st.Fitting) (h' : st'.Keyed) (hmore : st.DeclaresMore st')
    (hlinked : ∀ {ty : TypeId}, (st.nominals.declOf[ty]?).isSome = true →
      (st'.nominals.declOf[ty]?).isSome = true)
    (hlinks : ∀ {ty d : TypeId}, st'.nominals.declOf[ty]? = some d →
      st.nominals.declOf[ty]? = some d ∨ (st'.nominals.declOf[d]?).isSome = true ∧
        (st'.nominalArgs ty).length = (st'.nominalArgs d).length)
    (hkept : ∀ {ty : TypeId}, (st.nominals.bodies[ty]?).isSome = true →
      (st'.nominals.bodies[ty]?).isSome = true)
    (hbodies : ∀ {ty : TypeId} {b : Body}, st'.nominals.bodies[ty]? = some b →
      st.nominals.bodies[ty]? = some b ∨
        ∃ k : DeclKind, st'.kind ty = k.kind ∧ b.Suits st' (st'.nominalArgs ty).length k)
    (hvariants : ∀ {name : Name} {d v : TypeId} {k : DeclKind} {params args : List TypeId},
      st'.Declares name d k params → st'.nominals.variants[(d, args)]? = some v →
        st.Declares name d k params ∧ st.nominals.variants[(d, args)]? = some v ∨
          (st'.nominals.bodies[v]?).isSome = true) : st'.Fitting where
  keyed := h'
  links {ty d} hlink := by
    refine (hlinks hlink).elim (fun hold => ?_) id
    obtain ⟨hself, hlen⟩ := h.links hold
    obtain ⟨d', hd'⟩ := Option.isSome_iff_exists.mp hself
    refine ⟨hlinked hself, ?_⟩
    rw [Store.nominalArgs, Store.nominalArgs,
      shape_of_le hmore.le (h.anchored.links hold).lt_size,
      shape_of_le hmore.le (h.anchored.links hd').lt_size]
    exact hlen
  bodies {ty b} hb := by
    refine (hbodies hb).elim (fun hold => ?_) id
    obtain ⟨k, hk, hsuits⟩ := h.bodies hold
    have hlt : ty < st.size := by
      obtain ⟨name, args, hshape⟩ := exists_shape_of_kind hk
      exact lt_size_of_shape_nominal hshape
    refine ⟨k, (kind_of_le hmore.le hlt).trans hk, ?_⟩
    rw [Store.nominalArgs, shape_of_le hmore.le hlt]
    exact hsuits.of_more hmore
  bodied hd hv := (hvariants hd hv).elim (fun hold => hkept (h.bodied hold.1 hold.2)) id

theorem of_nominals (h : st.Fitting) (hle : st ≤ st') (hnom : st'.nominals = st.nominals) :
    st'.Fitting := by
  refine h.extend (kept_keyed.nominals h.keyed hle hnom) (Advances.of_nominals hle hnom).declaresMore
    ?_ ?_ ?_ ?_ fun hd hv => .inl ⟨?_, ?_⟩
  · exact fun hsome => hnom ▸ hsome
  · exact fun hlink => .inl (hnom ▸ hlink)
  · exact fun hsome => hnom ▸ hsome
  · exact fun hb => .inl (hnom ▸ hb)
  · exact h.anchored.declares_of hle (by rw [hnom]) hd
  · exact hnom ▸ hv

/-- Where bodies change, the new ones fit. -/
theorem of_bodies (h : st.Fitting) (h' : st'.Keyed) (hsame : SameButBodies st st')
    (hkept : ∀ {ty : TypeId}, (st.nominals.bodies[ty]?).isSome = true →
      (st'.nominals.bodies[ty]?).isSome = true)
    (hbodies : ∀ {ty : TypeId} {b : Body}, st'.nominals.bodies[ty]? = some b →
      st.nominals.bodies[ty]? = some b ∨
        ∃ k : DeclKind, st.kind ty = k.kind ∧ b.Suits st (st.nominalArgs ty).length k) :
    st'.Fitting := by
  refine h.extend h' hsame.declaresMore (fun hsome => ?_) (fun hlink => .inl ?_) hkept (fun hb => ?_)
    fun hd hv => .inl ⟨hsame.declares.mp hd, ?_⟩
  · rwa [hsame.declOf]
  · rwa [hsame.declOf] at hlink
  · refine (hbodies hb).imp_right fun ⟨k, hk, hsuits⟩ => ⟨k, ?_, ?_⟩
    · rw [Store.kind, hsame.shape]
      exact hk
    · rw [Store.nominalArgs, hsame.shape]
      exact hsuits.of_more hsame.declaresMore
  · rwa [hsame.variants] at hv

theorem setBody (h : st.Fitting) (hself : st.isDeclaration d = true) (hkind : st.kind d = k.kind)
    (hb : b.Suits st (st.nominalArgs d).length k) : (st.setBody d b).Fitting := by
  refine h.of_bodies (kept_keyed.setBody h.keyed hself hkind b) (sameButBodies_setBody st d b) ?_ ?_
  · intro ty hty
    rw [bodies_setBody]
    split
    · rfl
    · exact hty
  · intro ty b' hb'
    rw [bodies_setBody] at hb'
    split at hb'
    · next heq =>
      obtain rfl := Option.some.inj hb'
      exact .inr ⟨k, heq ▸ hkind, heq ▸ hb⟩
    · exact .inl hb'

/-- A product or sum with a link takes as many arguments as it has. -/
theorem takes (h : st.Fitting) (hkind : st.kind ty = k.kind)
    (hlink : (st.nominals.declOf[ty]?).isSome = true) :
    st.Takes k (st.nominalArgs ty).length ty := by
  obtain ⟨d, hd⟩ := Option.isSome_iff_exists.mp hlink
  obtain ⟨name, args, hshape⟩ := exists_shape_of_kind hkind
  obtain ⟨params, hdecl⟩ := (h.anchored.links hd).declares hshape
  refine ⟨name, args, d, params, hshape, hdecl, ?_⟩
  rw [(h.links hd).2, hdecl.nominalArgs]

/-- A type with a body has as many arguments as it takes. -/
theorem length_nominalArgs (h : st.Fitting) (htakes : st.Takes k n ty)
    (hbody : (st.nominals.bodies[ty]?).isSome = true) : (st.nominalArgs ty).length = n := by
  obtain ⟨name, args, d, params, hshape, hd, rfl⟩ := htakes
  obtain ⟨d', hd'⟩ := Option.isSome_iff_exists.mp (h.anchored.bodies hbody).2
  obtain ⟨params', hdecl⟩ := (h.anchored.links hd').declares hshape
  obtain ⟨rfl, -, rfl⟩ := hdecl.unique hd
  rw [(h.links hd').2, hdecl.nominalArgs]

theorem bindParent (h : st.Fitting) (htag : st.Takes .product n tag) (hsum : st.Takes .sum n sum) :
    (st.bindParent tag sum).Fitting := by
  cases hbody : st.productBody? tag with
  | none => rwa [bindParent_of_none hbody]
  | some body =>
    have hstored := productBody?_eq_some.mp hbody
    refine h.of_bodies (kept_keyed.bindParent h.keyed tag sum) (sameButBodies_bindParent st tag sum)
      ?_ ?_
    · intro ty hty
      rw [bodies_bindParent hbody]
      split
      · rfl
      · exact hty
    · intro ty b hb
      rw [bodies_bindParent hbody] at hb
      split at hb
      · next heq =>
        subst heq
        obtain rfl := Option.some.inj hb
        obtain ⟨k, hk, hsuits⟩ := h.bodies hstored
        refine .inr ⟨k, hk, ?_⟩
        rw [h.length_nominalArgs htag (by rw [hstored]; rfl)] at hsuits ⊢
        cases hsuits with
        | product fields parent =>
          refine .product fields fun s hs => ?_
          rcases Option.or_eq_some_iff.mp hs with hold | ⟨-, hnew⟩
          · exact parent s hold
          · exact Option.some.inj hnew ▸ hsum
      · exact .inl hb

theorem bindParents (h : st.Fitting) (htags : ∀ tag ∈ parts, st.Takes .product n tag)
    (hsum : st.Takes .sum n sum) : (st.bindParents sum parts).Fitting := by
  induction parts generalizing st with
  | nil => exact h
  | cons tag parts ih =>
    obtain ⟨htag, hrest⟩ := List.forall_mem_cons.mp htags
    have hmore := (sameButBodies_bindParent st tag sum).declaresMore
    exact ih (h.bindParent htag hsum) (fun t ht => (hrest t ht).of_more hmore) (hsum.of_more hmore)

/-- An instance is entered with a body that fits. -/
theorem enterWith (h : st.Fitting) (hd : st.Declares name d k params)
    (hargs : ∀ a ∈ args, a < st.size) (hne : params ≠ args) (hlen : params.length = args.length)
    (hnew : st.nominals.variants[(d, args)]? = none) (hb : b.Suits st args.length k) :
    (DeclM.enterWith d args (k.shape name args) b st).2.Fitting := by
  have hkeyed := kept_keyed.enterWith h.keyed hd hargs hne hnew b
  have haccrues := accrues_enterWith (k.shape name args) b hnew
  have hinst := isInstance_enterWith d k name b hargs
  have hlength : ((DeclM.enterWith d args (k.shape name args) b st).2.nominalArgs
      (DeclM.enterWith d args (k.shape name args) b st).1).length = args.length := by
    rw [Store.nominalArgs, hinst.shape, DeclKind.nominalArgs_shape, List.length_map]
  refine h.extend hkeyed haccrues.declaresMore ?_ ?_ ?_ ?_ ?_
  · intro ty hty
    rw [declOf_enterWith]
    split
    · rfl
    · exact hty
  · intro ty d' hlink
    rw [declOf_enterWith] at hlink
    split at hlink
    · next heq =>
      subst heq
      obtain rfl := Option.some.inj hlink
      refine .inr ⟨?_, ?_⟩
      · rw [declOf_enterWith]
        split
        · rfl
        · rw [(h.anchored.declares hd.declared).1]
          rfl
      · rw [hlength, (haccrues.declaresMore.declares hd).nominalArgs, hlen]
    · exact .inl hlink
  · intro ty hty
    rw [bodies_enterWith, Option.isSome_or, hty]
    rfl
  · intro ty b' hb'
    rw [bodies_enterWith] at hb'
    rcases Option.or_eq_some_iff.mp hb' with hold | ⟨-, hnew⟩
    · exact .inl hold
    · split at hnew
      · next heq =>
        subst heq
        obtain rfl := Option.some.inj hnew
        refine .inr ⟨k, by rw [Store.kind, hinst.shape, DeclKind.kind_shape], ?_⟩
        rw [hlength]
        exact hb.of_more haccrues.declaresMore
      · cases hnew
  · intro name' d' k' params' args' w hd' hw
    rw [variants_enterWith, Std.HashMap.getElem?_insert] at hw
    split at hw
    · obtain rfl := Option.some.inj hw
      right
      rw [bodies_enterWith, if_pos rfl, Option.isSome_or]
      exact Bool.or_true _
    · exact .inl ⟨h.anchored.declares_of haccrues.le haccrues.declared hd', hw⟩

/-- An instance of a trait is entered, without a body. -/
theorem enterTrait (h : st.Fitting) (htrait : st.kind d = .trait) (hv : st.kind v = .trait)
    (hlink : (st.nominals.declOf[d]?).isSome = true)
    (hlen : (st.nominalArgs v).length = (st.nominalArgs d).length)
    (h' : (enterVariant d args v st).Anchored) : (enterVariant d args v st).Fitting := by
  have hdeclOf : ∀ ty : TypeId, (enterVariant d args v st).nominals.declOf[ty]? =
      if v = ty then some d else st.nominals.declOf[ty]? := fun ty => by
    show (st.nominals.declOf.insert v d)[ty]? = _
    rw [Std.HashMap.getElem?_insert]
    simp only [beq_iff_eq]
  have hlinked : ∀ {ty : TypeId}, (st.nominals.declOf[ty]?).isSome = true →
      ((enterVariant d args v st).nominals.declOf[ty]?).isSome = true := fun {ty} hty => by
    rw [hdeclOf]
    split
    · rfl
    · exact hty
  refine h.extend (kept_keyed.enterTrait h.keyed htrait hv h')
    ⟨le_refl st, fun hd => ⟨hd.declared, hd.shape⟩⟩ hlinked (fun {ty d'} hd' => ?_) id .inl
    fun hd' hw => ?_
  · rw [hdeclOf] at hd'
    split at hd'
    · next heq =>
      obtain rfl := Option.some.inj hd'
      exact .inr ⟨hlinked hlink, heq ▸ hlen⟩
    · exact .inl hd'
  · rcases variants_enterVariant_cases hw with ⟨rfl, -, -⟩ | hw
    · exact absurd ((declares_enterVariant hd').kind.symm.trans htrait) (DeclKind.kind_ne_trait _)
    · exact .inl ⟨declares_enterVariant hd', hw⟩

/-- A link of a new declaration leads to itself. -/
theorem declare (h : st.Fitting) (hnew : st.declared? name = none)
    (hshape : st.shape d = k.shape name params) (hvars : ∀ p ∈ params, st.isVar p = true) :
    (st.declare name d).Fitting := by
  have hkeyed := kept_keyed.declare h.keyed hnew hshape hvars (h.anchored.declare hnew hshape)
  refine h.extend hkeyed (declaresMore_declare hnew) (fun {ty} hty => ?_) (fun {ty d'} hd' => ?_) id
    .inl fun {name' d' w k' params' args'} hd' hw => .inl ⟨?_, hw⟩
  · rw [declOf_declare]
    split
    · rfl
    · exact hty
  · rw [declOf_declare] at hd'
    split at hd'
    · next heq =>
      obtain rfl := Option.some.inj hd'
      refine .inr ⟨?_, by rw [heq]⟩
      rw [declOf_declare, if_pos rfl]
      rfl
    · exact .inl hd'
  · have hname := hd'.declared
    rw [declared?_declare] at hname
    split at hname
    · -- nothing is entered for the new declaration
      obtain rfl := Option.some.inj hname
      have hnone : st.nominals.variants[(d, args')]? = none :=
        h.anchored.variants_eq_none hnew hshape
      have hw : st.nominals.variants[(d, args')]? = some w := hw
      rw [hnone] at hw
      cases hw
    · exact ⟨hname, hd'.shape⟩

theorem declareTrait (h : st.Fitting) (hkind : st.kind d = .trait) : (st.declareTrait d).Fitting := by
  have hdeclOf : ∀ ty : TypeId, (st.declareTrait d).nominals.declOf[ty]? =
      if d = ty then some d else st.nominals.declOf[ty]? := fun ty => by
    simp [Store.declareTrait, Std.HashMap.getElem?_insert]
  refine h.extend (kept_keyed.declareTrait h.keyed (h.anchored.declareTrait hkind))
    ⟨le_refl st, fun hd => ⟨hd.declared, hd.shape⟩⟩ (fun {ty} hty => ?_) (fun {ty d'} hd' => ?_) id
    .inl fun hd' hw => .inl ⟨⟨hd'.declared, hd'.shape⟩, hw⟩
  · rw [hdeclOf]
    split
    · rfl
    · exact hty
  · rw [hdeclOf] at hd'
    split at hd'
    · next heq =>
      obtain rfl := Option.some.inj hd'
      refine .inr ⟨?_, by rw [heq]⟩
      rw [hdeclOf, if_pos rfl]
      rfl
    · exact .inl hd'

/-- Only traits are left, and what they were made from. -/
theorem clearDeclared (h : st.Fitting) : st.clearDeclared.Fitting := by
  have hanchored := h.anchored.clearDeclared
  have hnone : ∀ name, st.clearDeclared.declared? name = none := declared?_clearDeclared st
  refine ⟨kept_keyed.clear h.keyed hanchored, fun {ty d} hlink => ?_, fun {ty b} hb => ?_,
    fun {name _ _ _ _ _} hd => ?_⟩
  · obtain ⟨hold, -⟩ := declOf_clearDeclared.mp hlink
    obtain ⟨hself, hlen⟩ := h.links hold
    refine ⟨?_, hlen⟩
    obtain ⟨d', hd'⟩ := Option.isSome_iff_exists.mp hself
    have htrait := (h.anchored.links hd').trait (hanchored.link_of_none hnone hlink).2
    rw [declOf_clearDeclared.mpr ⟨hd', fun name hname => ?_⟩]
    · rfl
    · obtain ⟨-, k, params, hd⟩ := h.anchored.declares hname
      exact k.kind_ne_trait (hd.kind.symm.trans htrait)
  · rw [hanchored.bodies_of_none hnone] at hb
    cases hb
  · have hname := hd.declared
    rw [hnone] at hname
    cases hname

end Fitting

end Store

end ConstraintTyping
