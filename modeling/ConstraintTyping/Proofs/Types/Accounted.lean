import ConstraintTyping.Proofs.Types.Declaring
import ConstraintTyping.Proofs.Types.Lasting

/-!
# Every product and sum is accounted for

Whatever is done to a store, a product or sum is only ever built under a name that is declared, at as
many arguments as the name takes, and a body is only ever given to what is declared or entered as an
instance.  So the declaration behind a product or sum can always be found.
-/

namespace ConstraintTyping

namespace DeclKind

variable {α β : Type}

theorem kind_injective {k k' : DeclKind} (h : k.kind = k'.kind) : k = k' := by
  cases k <;> cases k' <;> first | rfl | cases h

/-- Only a product or sum can be read as one. -/
theorem of_map_eq_shape {f : α → β} {s : Shape α} {k : DeclKind} {name : Name} {args : List β}
    (h : s.map f = k.shape name args) : ∃ args', s = k.shape name args' ∧ args = args'.map f := by
  cases k <;> cases s <;> simp_all [shape, Shape.map]

end DeclKind

namespace Store

variable {st st' : Store} {name : Name} {d ty v : TypeId} {k : DeclKind} {params args : List TypeId}
  {key : TypeId × List TypeId}

/-! ## What accounts for what -/

/-- A type is declared, or it is an instance. -/
def Owned (st : Store) (ty : TypeId) : Prop :=
  (∃ name, st.declared? name = some ty) ∨
    ∃ key : TypeId × List TypeId, st.nominals.variants[key]? = some ty

/-- A type goes with a declaration: neither is a product or sum, or the declaration is that of a name,
which a product or sum has as well. -/
structure Linked (st : Store) (ty d : TypeId) : Prop where
  lt_size : ty < st.size
  decl_lt : d < st.size
  same : (∀ k : DeclKind, st.kind ty ≠ k.kind ∧ st.kind d ≠ k.kind) ∨
    ∃ name k params, st.Declares name d k params ∧ ∀ k' name' args,
      st.shape ty = DeclKind.shape k' name' args → k' = k ∧ name' = name

/-- An instance is listed, and as a product or sum it has a body. -/
structure Entered (st : Store) (v : TypeId) : Prop where
  lt_size : v < st.size
  listed : v ∈ st.variants
  body : ∀ k : DeclKind, st.kind v = k.kind → (st.nominals.bodies[v]?).isSome = true

/-- Products and sums are built under declared names, and types with bodies are declared or
instances. -/
structure Accounted (st : Store) : Prop where
  declares : ∀ {name : Name} {d : TypeId}, st.declared? name = some d →
    ∃ k params, st.Declares name d k params
  heads : ∀ {ty : TypeId} {k : DeclKind} {name : Name} {args : List TypeId},
    st.shape ty = k.shape name args →
      ∃ d params, st.Declares name d k params ∧ params.length = args.length
  links : ∀ {ty d : TypeId}, st.nominals.declOf[ty]? = some d → st.Linked ty d
  bodies : ∀ {ty : TypeId}, (st.nominals.bodies[ty]?).isSome = true → st.Owned ty
  variants : ∀ {key : TypeId × List TypeId} {v : TypeId},
    st.nominals.variants[key]? = some v → st.Entered v

/-- A store goes on to another that has everything that it has. -/
structure Extends (st st' : Store) : Prop extends st.DeclaresMore st' where
  variants : ∀ {key : TypeId × List TypeId} {v : TypeId},
    st.nominals.variants[key]? = some v → st'.nominals.variants[key]? = some v
  listed : ∀ v ∈ st.variants, v ∈ st'.variants
  bodies : ∀ {ty : TypeId}, (st.nominals.bodies[ty]?).isSome = true →
    (st'.nominals.bodies[ty]?).isSome = true

theorem Linked.of_extends (h : st.Linked ty d) (hext : st.Extends st') : st'.Linked ty d where
  lt_size := lt_size_of_le hext.le h.lt_size
  decl_lt := lt_size_of_le hext.le h.decl_lt
  same := by
    rw [kind_of_le hext.le h.lt_size, kind_of_le hext.le h.decl_lt,
      shape_of_le hext.le h.lt_size]
    exact h.same.imp_right fun ⟨name, k, params, hd, hty⟩ =>
      ⟨name, k, params, hext.declares hd, hty⟩

theorem Entered.of_extends (h : st.Entered v) (hext : st.Extends st') : st'.Entered v where
  lt_size := lt_size_of_le hext.le h.lt_size
  listed := hext.listed v h.listed
  body k hk := by
    rw [kind_of_le hext.le h.lt_size] at hk
    exact hext.bodies (h.body k hk)

namespace Accounted

theorem owned_of_extends (h : st.Accounted) (hext : st.Extends st') (howned : st.Owned ty) :
    st'.Owned ty := by
  rcases howned with ⟨name, hname⟩ | ⟨key, hkey⟩
  · obtain ⟨k, params, hd⟩ := h.declares hname
    exact .inl ⟨name, (hext.declares hd).declared⟩
  · exact .inr ⟨key, hext.variants hkey⟩

/-- Everything is accounted for if what is added is. -/
theorem extend (h : st.Accounted) (hext : st.Extends st')
    (hdeclares : ∀ name d, st'.declared? name = some d →
      st.declared? name = some d ∨ ∃ k params, st'.Declares name d k params)
    (hheads : ∀ ty k name args, st.size ≤ ty → st'.shape ty = DeclKind.shape k name args →
      ∃ d params, st'.Declares name d k params ∧ params.length = args.length)
    (hlinks : ∀ ty d, st'.nominals.declOf[ty]? = some d →
      st.nominals.declOf[ty]? = some d ∨ st'.Linked ty d)
    (hbodies : ∀ ty, (st'.nominals.bodies[ty]?).isSome = true →
      (st.nominals.bodies[ty]?).isSome = true ∨ st'.Owned ty)
    (hvariants : ∀ (key : TypeId × List TypeId) (v : TypeId), st'.nominals.variants[key]? = some v →
      st.nominals.variants[key]? = some v ∨ st'.Entered v) : st'.Accounted where
  declares {name d} hname := by
    rcases hdeclares name d hname with hname | hd
    · obtain ⟨k, params, hd⟩ := h.declares hname
      exact ⟨k, params, hext.declares hd⟩
    · exact hd
  heads {ty k name args} hty := by
    rcases Nat.lt_or_ge ty st.size with hlt | hge
    · rw [shape_of_le hext.le hlt] at hty
      obtain ⟨d, params, hd, hlen⟩ := h.heads hty
      exact ⟨d, params, hext.declares hd, hlen⟩
    · exact hheads ty k name args hge hty
  links {ty d} hd := (hlinks ty d hd).elim (fun hd => (h.links hd).of_extends hext) id
  bodies {ty} hty := (hbodies ty hty).elim (fun hty => h.owned_of_extends hext (h.bodies hty)) id
  variants {key v} hv := (hvariants key v hv).elim (fun hv => (h.variants hv).of_extends hext) id

/-! ## The declaration behind a type -/

theorem declares_of_declOf? (h : st.Accounted) (hd : st.declOf? ty = some d)
    (hkind : st.kind d = k.kind) : ∃ name params, st.Declares name d k params := by
  have hdeclared : ∀ {name}, st.declared? name = some d →
      ∃ name params, st.Declares name d k params := by
    intro name hname
    obtain ⟨k', params, hdecl⟩ := h.declares hname
    obtain rfl := DeclKind.kind_injective (hdecl.kind.symm.trans hkind)
    exact ⟨name, params, hdecl⟩
  unfold declOf? at hd
  split at hd
  · next d' hd' =>
    obtain rfl := Option.some.inj hd
    rcases (h.links hd').same with hother | ⟨name, k', params, hdecl, -⟩
    · exact absurd hkind (hother k).2
    · exact hdeclared hdecl.declared
  · split at hd
    · exact hdeclared (Option.filter_eq_some_iff.mp hd).1
    · exact hdeclared (Option.filter_eq_some_iff.mp hd).1
    · cases hd

/-- The declaration behind a product or sum is that of its name, which takes as many arguments. -/
theorem exists_declOf? (h : st.Accounted) (hty : st.shape ty = k.shape name args) :
    ∃ d params, st.declOf? ty = some d ∧ st.Declares name d k params ∧
      params.length = args.length := by
  obtain ⟨d, params, hdecl, hlen⟩ := h.heads hty
  refine ⟨d, params, ?_, hdecl, hlen⟩
  have hkind : st.kind ty = k.kind := by rw [Store.kind, hty, DeclKind.kind_shape]
  unfold declOf?
  split
  · next d' hd' =>
    rcases (h.links hd').same with hother | ⟨name', k', params', hdecl', hsame⟩
    · exact absurd hkind (hother k).1
    · obtain ⟨rfl, rfl⟩ := hsame k name args hty
      rw [(hdecl.unique hdecl').1]
  · have hfound : (st.declared? name).filter (fun decl => st.kind decl = st.kind ty) = some d :=
      Option.filter_eq_some_iff.mpr ⟨hdecl.declared, by simp [hdecl.kind, hkind]⟩
    rw [hty]
    cases k <;> exact hfound

/-! ## Steps -/

/-- Types are added that are no products or sums, or that have declared names. -/
theorem of_intern {s : Shape TypeId} (h : st.Accounted)
    (hs : ∀ k name args, s = DeclKind.shape k name args →
      ∃ d params, st.Declares name d k params ∧ params.length = args.length) :
    (StoreM.intern s st).2.Accounted := by
  have hmore : st.DeclaresMore (StoreM.intern s st).2 :=
    (Advances.of_nominals (StoreM.intern_le s st) rfl).declaresMore
  refine h.extend ⟨hmore, id, fun _ => id, id⟩ (fun _ _ => .inl) ?_ (fun _ _ => .inl)
    (fun _ => .inl) (fun _ _ => .inl)
  intro ty k name args hge hty
  have hlt : ty < (StoreM.intern s st).2.size := by
    by_contra hge'
    rw [shape_of_ge (Nat.le_of_not_lt hge')] at hty
    cases k <;> cases hty
  rw [(StoreM.shape_intern_of_ge hge hlt).1] at hty
  have hkey : ∃ args', s = k.shape name args' ∧ args.length = args'.length := by
    unfold TypeTable.key at hty
    split at hty
    · exact ⟨args, hty, rfl⟩
    · obtain ⟨args', rfl, rfl⟩ := DeclKind.of_map_eq_shape hty
      exact ⟨args', rfl, List.length_map _⟩
  obtain ⟨args', rfl, hlen⟩ := hkey
  obtain ⟨d, params, hd, hlen'⟩ := hs k name args' rfl
  exact ⟨d, params, hmore.declares hd, hlen'.trans hlen.symm⟩

theorem qualify (h : st.Accounted) (q : Qualifier) (base : TypeId) :
    (StoreM.qualify q base st).2.Accounted :=
  StoreM.qualify_keeps (fun _ _ _ h => h.of_intern fun k _ _ => by cases k <;> exact nofun) h

/-- A name that is not declared has no types, so that the new declaration accounts for the first. -/
theorem declare (h : st.Accounted) (hnew : st.declared? name = none)
    (hargs : ∀ a ∈ args, a < st.size) :
    ((StoreM.intern (k.shape name args) st).2.declare name
      (StoreM.intern (k.shape name args) st).1).Accounted := by
  obtain ⟨hd, hshape⟩ := StoreM.intern_spec (s := k.shape name args) (by simpa using hargs)
  have hle := StoreM.intern_le (k.shape name args) st
  have hother : ∀ ty, st.size ≤ ty → ty < (StoreM.intern (k.shape name args) st).2.size →
      ty = (StoreM.intern (k.shape name args) st).1 := fun ty hge hlt =>
    eq_of_shape_eq hlt hd ((StoreM.shape_intern_of_ge hge hlt).1.trans hshape.symm)
  rw [TypeTable.key, if_neg (by simp), DeclKind.map_shape] at hshape
  have hnom := StoreM.intern_nominals (k.shape name args) st
  generalize StoreM.intern (k.shape name args) st = built at hd hshape hle hother hnom
  obtain ⟨d, st₁⟩ := built
  dsimp only at hd hshape hle hother hnom ⊢
  have hfree : st₁.declared? name = none := by rw [Store.declared?, hnom]; exact hnew
  have hdecl : (st₁.declare name d).Declares name d k (args.map st.table.bare) :=
    ⟨(declared?_declare st₁ name name d).trans (if_pos rfl), hshape⟩
  have hmore : st.DeclaresMore (st₁.declare name d) :=
    (Advances.of_nominals hle hnom).declaresMore.trans (declaresMore_declare hfree)
  have hvariants : (st₁.declare name d).nominals.variants = st.nominals.variants := by
    rw [← hnom]; rfl
  have hbodies : (st₁.declare name d).nominals.bodies = st.nominals.bodies := by rw [← hnom]; rfl
  have hlisted : (st₁.declare name d).variants = st.variants := by
    rw [Store.variants, Store.variants, ← hnom]; rfl
  refine h.extend ⟨hmore, by rw [hvariants]; exact id, by rw [hlisted]; exact fun _ => id,
    by rw [hbodies]; exact id⟩ ?_ ?_ ?_ (by rw [hbodies]; exact fun _ => .inl)
    (by rw [hvariants]; exact fun _ _ => .inl)
  · intro name' d' hname'
    rw [declared?_declare] at hname'
    split at hname'
    · next heq =>
      obtain rfl := Option.some.inj hname'
      subst heq
      exact .inr ⟨k, _, hdecl⟩
    · rw [Store.declared?, hnom] at hname'
      exact .inl hname'
  · intro ty k' name' args' hge hty
    have hlt : ty < st₁.size := by
      by_contra hge'
      have hge' : (st₁.declare name d).size ≤ ty := Nat.le_of_not_lt hge'
      rw [shape_of_ge hge'] at hty
      cases k' <;> cases hty
    rw [hother ty hge hlt] at hty
    obtain ⟨rfl, rfl, rfl⟩ := DeclKind.shape_inj (hshape.symm.trans hty)
    exact ⟨d, _, hdecl, rfl⟩
  · intro ty d' hd'
    rw [declOf_declare] at hd'
    split at hd'
    · next heq =>
      obtain rfl := Option.some.inj hd'
      subst heq
      refine .inr ⟨hd, hd, .inr ⟨name, k, _, hdecl, fun k' name' args' hty => ?_⟩⟩
      obtain ⟨rfl, rfl, -⟩ := DeclKind.shape_inj (hshape.symm.trans hty)
      exact ⟨rfl, rfl⟩
    · rw [hnom] at hd'
      exact .inl hd'

/-- Bodies change, and a new one is that of a declaration or an instance. -/
theorem of_bodies (h : st.Accounted) (hsame : SameButBodies st st')
    (hlisted : st'.variants = st.variants)
    (hkept : ∀ {ty : TypeId}, (st.nominals.bodies[ty]?).isSome = true →
      (st'.nominals.bodies[ty]?).isSome = true)
    (hnew : ∀ ty : TypeId, (st'.nominals.bodies[ty]?).isSome = true →
      (st.nominals.bodies[ty]?).isSome = true ∨ st.Owned ty) : st'.Accounted := by
  have hext : st.Extends st' := ⟨hsame.declaresMore, by rw [hsame.variants]; exact id,
    by rw [hlisted]; exact fun _ => id, hkept⟩
  refine h.extend hext (fun name d hd => .inl ?_) (fun ty k name args hge hty => ?_)
    (by rw [hsame.declOf]; exact fun _ _ => .inl)
    (fun ty hty => (hnew ty hty).imp_right (h.owned_of_extends hext))
    (by rw [hsame.variants]; exact fun _ _ => .inl)
  · rwa [hsame.declared?] at hd
  · rw [hsame.shape, shape_of_ge hge] at hty
    cases k <;> cases hty

theorem setBody (h : st.Accounted) (hself : st.isDeclaration d = true) (hkind : st.kind d = k.kind)
    (b : Body) : (st.setBody d b).Accounted := by
  have hlink : st.nominals.declOf[d]? = some d := by simpa [isDeclaration] using hself
  obtain ⟨name, params, hd⟩ := h.declares_of_declOf? (by rw [declOf?, hlink]) hkind
  refine h.of_bodies (sameButBodies_setBody st d b) rfl (fun {ty} hty => ?_) fun ty hty => ?_ <;>
    rw [bodies_setBody] at *
  · split
    · rfl
    · exact hty
  · split at hty
    · next heq => exact .inr (.inl ⟨name, heq ▸ hd.declared⟩)
    · exact .inl hty

theorem bindParent (h : st.Accounted) (tag sum : TypeId) : (st.bindParent tag sum).Accounted := by
  cases hbody : st.productBody? tag with
  | none => rwa [bindParent_of_none hbody]
  | some body =>
    have htag : (st.nominals.bodies[tag]?).isSome = true := by
      rw [productBody?_eq_some.mp hbody]; rfl
    refine h.of_bodies (sameButBodies_bindParent st tag sum) ?_ (fun {ty} hty => ?_) fun ty hty => ?_
    · rw [Store.bindParent, hbody]
      rfl
    · rw [bodies_bindParent hbody]
      split
      · rfl
      · exact hty
    · rw [bodies_bindParent hbody] at hty
      split at hty
      · next heq => exact .inl (heq ▸ htag)
      · exact .inl hty

/-- An instance is entered, and as a product or sum it gets a body. -/
theorem enter (h : st.Accounted) (hfree : st.nominals.variants[(d, args)]? = none)
    (hlink : st.Linked v d) (hsame : SameButBodies (DeclM.enterVariant d args v st) st')
    (hlisted : st'.variants = (DeclM.enterVariant d args v st).variants)
    (hkept : ∀ {ty : TypeId}, (st.nominals.bodies[ty]?).isSome = true →
      (st'.nominals.bodies[ty]?).isSome = true)
    (hnew : ∀ ty : TypeId, (st'.nominals.bodies[ty]?).isSome = true →
      (st.nominals.bodies[ty]?).isSome = true ∨ ty = v)
    (hbody : ∀ k : DeclKind, st.kind v = k.kind → (st'.nominals.bodies[v]?).isSome = true) :
    st'.Accounted := by
  have hvariants : ∀ key : TypeId × List TypeId, st'.nominals.variants[key]? =
      if (d, args) = key then some v else st.nominals.variants[key]? := fun key => by
    rw [hsame.variants]
    show (st.nominals.variants.insert (d, args) v)[key]? = _
    rw [Std.HashMap.getElem?_insert]
    simp only [beq_iff_eq]
  have hdeclOf : ∀ ty : TypeId, st'.nominals.declOf[ty]? =
      if v = ty then some d else st.nominals.declOf[ty]? := fun ty => by
    rw [hsame.declOf]
    show (st.nominals.declOf.insert v d)[ty]? = _
    rw [Std.HashMap.getElem?_insert]
    simp only [beq_iff_eq]
  have hlist : st'.variants = st.variants ++ [v] := by
    rw [hlisted]
    exact Array.toList_push
  have hext : st.Extends st' := by
    refine ⟨⟨hsame.le, fun hd => hsame.declares.mpr ⟨hd.declared, hd.shape⟩⟩, fun {key w} hw => ?_,
      fun w hw => ?_, hkept⟩
    · rw [hvariants]
      split
      · next heq =>
        rw [← heq, hfree] at hw
        cases hw
      · exact hw
    · rw [hlist]
      exact List.mem_append_left _ hw
  have hentered : st'.Entered v := by
    refine ⟨lt_size_of_le hext.le hlink.lt_size, ?_, fun k hk => hbody k ?_⟩
    · rw [hlist]
      exact List.mem_append_right _ (List.mem_singleton_self v)
    · rwa [kind_of_le hext.le hlink.lt_size] at hk
  refine h.extend hext (fun name d hd => .inl ?_) (fun ty k name args hge hty => ?_)
    (fun ty d' hd' => ?_) (fun ty hty => ?_) fun key w hw => ?_
  · rwa [hsame.declared?] at hd
  · rw [hsame.shape] at hty
    change st.shape ty = _ at hty
    rw [shape_of_ge hge] at hty
    cases k <;> cases hty
  · rw [hdeclOf] at hd'
    split at hd'
    · next heq =>
      obtain rfl := Option.some.inj hd'
      exact .inr (heq ▸ hlink.of_extends hext)
    · exact .inl hd'
  · refine (hnew ty hty).imp_right ?_
    rintro rfl
    exact .inr ⟨(d, args), by rw [hvariants, if_pos rfl]⟩
  · rw [hvariants] at hw
    split at hw
    · obtain rfl := Option.some.inj hw
      exact .inr hentered
    · exact .inl hw

/-- An instance of a declared product or sum is entered. -/
theorem enterWith (h : st.Accounted) (hd : st.Declares name d k params)
    (hlen : params.length = args.length) (hfree : st.nominals.variants[(d, args)]? = none)
    (b : Body) : (DeclM.enterWith d args (k.shape name args) b st).2.Accounted := by
  have h₁ : (StoreM.intern (k.shape name args) st).2.Accounted := by
    refine h.of_intern fun k' name' args' hs => ?_
    obtain ⟨rfl, rfl, rfl⟩ := DeclKind.shape_inj hs
    exact ⟨d, params, hd, hlen⟩
  have hmore : st.DeclaresMore (StoreM.intern (k.shape name args) st).2 :=
    (Advances.of_nominals (StoreM.intern_le _ st) rfl).declaresMore
  unfold DeclM.enterWith
  refine h₁.enter hfree ?_ (sameButBodies_ensureBody _ b _) ?_ (fun {ty} hty => ?_)
    (fun ty hty => ?_) fun _ _ => ?_
  · refine ⟨StoreM.intern_lt_size _ st, lt_size_of_le hmore.le hd.lt_size,
      .inr ⟨name, k, params, hmore.declares hd, fun k' name' args' hty => ?_⟩⟩
    rcases StoreM.shape_intern (k.shape name args) st with hshape | hshape
    · rw [hshape, TypeTable.key, if_neg (by simp), DeclKind.map_shape] at hty
      obtain ⟨rfl, rfl, -⟩ := DeclKind.shape_inj hty
      exact ⟨rfl, rfl⟩
    · rw [hshape] at hty
      cases k' <;> cases hty
  · show (DeclM.ensureBody _ b (DeclM.enterVariant d args _ _)).variants = _
    unfold DeclM.ensureBody
    split <;> rfl
  · rw [bodies_ensureBody, Option.isSome_or]
    exact Bool.or_eq_true_iff.mpr (.inl hty)
  · rw [bodies_ensureBody, Option.isSome_or, Bool.or_eq_true] at hty
    refine hty.imp id fun hty => ?_
    split at hty
    · next heq => exact heq.symm
    · cases hty
  · rw [bodies_ensureBody, if_pos rfl, Option.isSome_or]
    exact Bool.or_true _

theorem kind_variantShape (s : Shape TypeId) (args : List TypeId) :
    (DeclM.variantShape s args).kind = s.kind := by
  unfold DeclM.variantShape
  split <;> rfl

/-- An instance of anything else is entered. -/
theorem enterOther (h : st.Accounted) (hd : d < st.size) (hkind : ∀ k : DeclKind, st.kind d ≠ k.kind)
    (hfree : st.nominals.variants[(d, args)]? = none) :
    (DeclM.enterVariant d args (StoreM.intern (DeclM.variantShape (st.shape d) args) st).1
      (StoreM.intern (DeclM.variantShape (st.shape d) args) st).2).Accounted := by
  have hle := StoreM.intern_le (DeclM.variantShape (st.shape d) args) st
  have hother : ∀ k : DeclKind, (StoreM.intern (DeclM.variantShape (st.shape d) args) st).2.kind
      (StoreM.intern (DeclM.variantShape (st.shape d) args) st).1 ≠ k.kind := by
    intro k hk
    rcases StoreM.kind_intern (DeclM.variantShape (st.shape d) args) st with hv | hv
    · exact hkind k (by rw [← hk, hv, kind_variantShape]; rfl)
    · rw [hv] at hk
      cases k <;> cases hk
  have h₁ : (StoreM.intern (DeclM.variantShape (st.shape d) args) st).2.Accounted := by
    refine h.of_intern fun k name args' hs => absurd ?_ (hkind k)
    rw [Store.kind, ← kind_variantShape _ args, hs, DeclKind.kind_shape]
  refine h₁.enter hfree ⟨StoreM.intern_lt_size _ st, lt_size_of_le hle hd, .inl fun k => ⟨hother k, ?_⟩⟩
    ⟨rfl, rfl, rfl, rfl⟩ rfl id (fun _ => .inl) fun k hk => absurd hk (hother k)
  rw [kind_of_le hle hd]
  exact hkind k

/-- What is no product or sum becomes its own declaration. -/
theorem declareOther (h : st.Accounted) (hd : d < st.size)
    (hkind : ∀ k : DeclKind, st.kind d ≠ k.kind) :
    Accounted { st with nominals.declOf := st.nominals.declOf.insert d d } := by
  have hext : st.Extends { st with nominals.declOf := st.nominals.declOf.insert d d } :=
    ⟨⟨le_refl st, fun hd => ⟨hd.declared, hd.shape⟩⟩, id, fun _ => id, id⟩
  refine h.extend hext (fun _ _ => .inl) (fun ty k name args hge hty => ?_) (fun ty d' hd' => ?_)
    (fun _ => .inl) (fun _ _ => .inl)
  · change st.shape ty = _ at hty
    rw [shape_of_ge hge] at hty
    cases k <;> cases hty
  · change (st.nominals.declOf.insert d d)[ty]? = some d' at hd'
    rw [Std.HashMap.getElem?_insert] at hd'
    split at hd'
    · next heq =>
      obtain rfl := eq_of_beq heq
      obtain rfl := Option.some.inj hd'
      exact .inr ⟨hd, hd, .inl fun k => ⟨hkind k, hkind k⟩⟩
    · exact .inl hd'

theorem lt_of_declOf? (h : st.Accounted) (hd : st.declOf? ty = some d) : d < st.size := by
  have hdeclared : ∀ {name}, st.declared? name = some d → d < st.size := fun hname => by
    obtain ⟨k, params, hdecl⟩ := h.declares hname
    exact hdecl.lt_size
  unfold declOf? at hd
  split at hd
  · next d' hd' =>
    obtain rfl := Option.some.inj hd
    exact (h.links hd').decl_lt
  · split at hd
    · exact hdeclared (Option.filter_eq_some_iff.mp hd).1
    · exact hdeclared (Option.filter_eq_some_iff.mp hd).1
    · cases hd

open StoreM in
/-- A declaration is refused, or it accounts for the type that is built for it. -/
theorem run_declare (h : st.Accounted) (k : DeclKind) (name : Name) (params : List Name) :
    ((DeclM.declare k name params).run st).2.Accounted := by
  have hgives : Gives (DeclM.declare k name params) st Accounted fun _ => Accounted := by
    refine gives_get_bind ?_
    split
    · exact gives_throw h
    next hnew =>
    have hvars : Preserves Accounted
        (params.mapM fun p => (liftM (StoreM.namedVar p) : DeclM TypeId)).run :=
      preserves_run_mapM (fun p => preserves_run_lift fun st h =>
        h.of_intern fun k _ _ => by cases k <;> exact nofun) params
    have hnames := (DeclM.gives_namedVars (E := fun _ => False) params st).preserves hvars h
    refine (hnames.mono (fun _ h => h.2) fun _ _ h => h).bind fun args st₁ hargs => ?_
    obtain ⟨⟨⟨hle, hnom⟩, hnamed⟩, h₁⟩ := hargs
    have hnew₁ : st₁.declared? name = none := by
      rw [Store.declared?, hnom]
      simpa using hnew
    have hlt : ∀ a ∈ args, a < st₁.size := fun a ha => by
      obtain ⟨n, -, hn⟩ := exists_mem_of_forall₂ hnamed ha
      exact lt_size_of_shape_var hn
    exact Gives.bind (Q := fun d st₂ => (st₂.declare name d).Accounted)
      (gives_lift (h₁.declare hnew₁ hlt)) fun d st₂ h₂ => gives_modify_bind (gives_pure h₂)
  exact hgives.end fun _ _ h => h

end Accounted

theorem accounted_new : Store.new.Accounted where
  declares h := by simp [declared?_new] at h
  heads {ty k name args} h := by
    obtain ⟨p, hp⟩ := exists_shape_new ty
    rw [hp] at h
    cases k <;> cases h
  links h := by simp [Store.new] at h
  bodies h := by simp [Store.new] at h
  variants h := by simp [Store.new] at h

/-- Being accounted for lasts. -/
theorem lasting_accounted : Lasting Accounted where
  build h hq hs := h.of_intern fun k name args heq => absurd heq (hs k name args)
  again {st s ty} h _ hhead := h.of_intern fun k name args heq => by
    rw [heq, Shape.head, DeclKind.map_shape] at hhead
    obtain ⟨args', hty, hargs⟩ := DeclKind.of_map_eq_shape hhead.symm
    obtain ⟨d, params, hd, hlen⟩ := h.heads hty
    refine ⟨d, params, hd, hlen.trans ?_⟩
    simpa using (congrArg List.length hargs).symm
  qualify h := h.qualify _ _
  declare h := h.run_declare _ _ _
  declareOther h hd hkind := h.declareOther hd hkind
  define h hself hkind := h.setBody hself hkind _
  bindParent h := h.bindParent _ _
  enter h hd hlen hfree hkind := by
    obtain ⟨name, params, hdecl⟩ := h.declares_of_declOf? hd hkind
    rw [hdecl.shape, DeclKind.variantShape_shape]
    rw [hdecl.nominalArgs] at hlen
    exact h.enterWith hdecl hlen hfree _
  enterOther h hd hlen hfree hkind := h.enterOther (h.lt_of_declOf? hd) hkind hfree

end Store

end ConstraintTyping
