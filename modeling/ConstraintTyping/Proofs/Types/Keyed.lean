import ConstraintTyping.Proofs.Renaming.Making

/-!
# Instances and the arguments they are entered under

Operations change what is declared in a few ways only: a name is declared, a body is given or
changed, an instance is entered, everything is forgotten.  `Operation.Kept` lists them, for stores
that are anchored and for arguments of a sort; a property that each of them keeps holds after every
operation, whether that is refused or not.

One such property is `Store.Keyed`.  The parameters of a declaration are variables, and an instance
of a declared product or sum is that declaration at the arguments under which it was entered, up to
their qualifiers.
-/

namespace ConstraintTyping

open Store StoreM DeclM

namespace Store

variable {st st' : Store} {name : Name} {d ty v : TypeId} {k : DeclKind} {params args : List TypeId}

/-- Nothing is declared where the same names are. -/
theorem Anchored.declares_of (h : st.Anchored) (hle : st ≤ st')
    (hsame : st'.nominals.declared = st.nominals.declared) (hd : st'.Declares name d k params) :
    st.Declares name d k params := by
  have hname : st.declared? name = some d := by
    rw [Store.declared?, ← hsame]
    exact hd.declared
  obtain ⟨-, k', params', hd'⟩ := h.declares hname
  exact ⟨hname, by rw [← shape_of_le hle hd'.lt_size]; exact hd.shape⟩

/-- A declared product or sum is its own declaration. -/
theorem Anchored.declOf?_self (h : st.Anchored) (hd : st.declared? name = some d) :
    st.declOf? d = some d := by
  rw [Store.declOf?, (h.declares hd).1]

/-- What is behind a product or sum is declared under its name. -/
theorem Anchored.declares_of_declOf? (h : st.Anchored) (hd : st.declOf? ty = some d)
    (hkind : st.kind d ≠ .trait) : ∃ name k params args, st.Declares name d k params ∧
      st.shape ty = DeclKind.shape k name args := by
  rcases h.madeFrom_of_declOf? hd with ⟨-, htrait⟩ | hmade
  · exact absurd htrait hkind
  · exact hmade

/-- What is built for an instance is one. -/
theorem isInstance_intern (k : DeclKind) (name : Name) (hargs : ∀ a ∈ args, a < st.size) :
    (intern (k.shape name args) st).2.IsInstance name k args (intern (k.shape name args) st).1 := by
  obtain ⟨hv, hshape⟩ := (@yields_intern st (k.shape name args) (by simp) (by simpa using hargs)).result
  refine ⟨hv, hshape.trans ?_⟩
  rw [DeclKind.map_shape]
  congr 1
  exact List.map_congr_left fun a ha =>
    (bare_of_le (intern_le (k.shape name args) st) (hargs a ha)).symm

theorem isInstance_enterWith (d : TypeId) (k : DeclKind) (name : Name) (b : Body)
    (hargs : ∀ a ∈ args, a < st.size) :
    (enterWith d args (k.shape name args) b st).2.IsInstance name k args
      (enterWith d args (k.shape name args) b st).1 := by
  have hsame : SameButBodies (enterVariant d args (intern (k.shape name args) st).1
      (intern (k.shape name args) st).2) (enterWith d args (k.shape name args) b st).2 :=
    sameButBodies_ensureBody _ b _
  refine IsInstance.of_le ?_ (fun a ha => lt_size_of_le (intern_le _ st) (hargs a ha)) hsame.le
  exact ⟨(isInstance_intern k name hargs).lt_size, (isInstance_intern k name hargs).shape⟩

theorem variants_ensureBody (ty : TypeId) (b : Body) (st : Store) :
    (ensureBody ty b st).variants = st.variants := by
  unfold ensureBody
  split <;> rfl

end Store

namespace Operation

/-- Instances are asked for at arguments of a sort. -/
def ArgsFit (Fits : Store → TypeId → Prop) (st : Store) : Operation → Prop
  | variant _ _ args | instantiate _ args => ∀ a ∈ args, Fits st a
  | _ => True

/-- Everything that operations do to an anchored store keeps the property, where instances are asked
for at arguments of a sort. -/
structure Kept (P : Store → Prop) (Fits : Store → TypeId → Prop) : Prop where
  anchored : ∀ {st : Store}, P st → st.Anchored
  fits_lt : ∀ {st : Store} {a : TypeId}, Fits st a → a < st.size
  fits_of_le : ∀ {st st' : Store} {a : TypeId}, Fits st a → st ≤ st' → Fits st' a
  fits_var : ∀ {st : Store} {a : TypeId}, st.isVar a = true → Fits st a
  fits_arg : ∀ {st : Store} {ty a : TypeId}, a ∈ st.nominalArgs ty → Fits st a
  nominals : ∀ {st st' : Store}, P st → st ≤ st' → st'.nominals = st.nominals → P st'
  declare : ∀ {st : Store} {name : Name} {d : TypeId} {k : DeclKind} {params : List TypeId}, P st →
    st.declared? name = none → st.shape d = k.shape name params →
    (∀ p ∈ params, st.isVar p = true) → (st.declare name d).Anchored → P (st.declare name d)
  declareTrait : ∀ {st : Store} {d : TypeId}, P st → (st.declareTrait d).Anchored →
    P (st.declareTrait d)
  bodies : ∀ {st st' : Store}, P st → SameButBodies st st' → st'.variants = st.variants →
    st'.Anchored → P st'
  enter : ∀ {st : Store} {name : Name} {d v : TypeId} {k : DeclKind} {params args : List TypeId},
    P st → st.Declares name d k params → st.IsInstance name k args v → (∀ a ∈ args, Fits st a) →
    params ≠ args → st.nominals.variants[(d, args)]? = none →
    (enterVariant d args v st).Anchored → P (enterVariant d args v st)
  enterTrait : ∀ {st : Store} {d v : TypeId} {args : List TypeId}, P st → st.kind d = .trait →
    st.kind v = .trait → (enterVariant d args v st).Anchored → P (enterVariant d args v st)
  clear : ∀ {st : Store}, P st → st.clearDeclared.Anchored → P st.clearDeclared

namespace Kept

variable {P : Store → Prop} {Fits : Store → TypeId → Prop} {st : Store} {op : Operation}
  {ops : List Operation}

/-- A body that is tied to a sum. -/
theorem bindParent (h : Kept P Fits) (hst : P st) (tag sum : TypeId) : P (st.bindParent tag sum) :=
  h.bodies hst (sameButBodies_bindParent st tag sum)
    (by unfold Store.bindParent; split <;> rfl) ((h.anchored hst).bindParent tag sum)

/-- A body that is given. -/
theorem setBody (h : Kept P Fits) {d : TypeId} {k : DeclKind} (hst : P st)
    (hself : st.isDeclaration d = true) (hkind : st.kind d = k.kind) (b : Body) :
    P (st.setBody d b) :=
  h.bodies hst (sameButBodies_setBody st d b) rfl
    ((h.anchored hst).setBody hkind (by rw [eq_of_beq hself]; rfl) b)

/-- Entering an instance of a product or sum and giving it its body. -/
theorem enterWith (h : Kept P Fits) {name : Name} {d : TypeId} {k : DeclKind}
    {params args : List TypeId} (hst : P st) (hd : st.Declares name d k params)
    (hargs : ∀ a ∈ args, Fits st a) (hne : params ≠ args)
    (hnew : st.nominals.variants[(d, args)]? = none) (b : Body) :
    P (DeclM.enterWith d args (k.shape name args) b st).2 := by
  have hlt : ∀ a ∈ args, a < st.size := fun a ha => h.fits_lt (hargs a ha)
  have hle := intern_le (k.shape name args) st
  have hnom : (intern (k.shape name args) st).2.nominals = st.nominals := intern_nominals _ _
  have hbuilt := h.nominals hst hle hnom
  have hinst := isInstance_intern k name hlt
  have hanchored := (h.anchored hst).enterWith hd hlt b
  unfold DeclM.enterWith at hanchored ⊢
  have hmade : MadeFrom (intern (k.shape name args) st).2 (intern (k.shape name args) st).1 d :=
    .inr ⟨name, k, params, _, declares_of_nominals hle hnom hd, hinst.shape⟩
  have hentered := h.enter hbuilt (declares_of_nominals hle hnom hd) hinst
    (fun a ha => h.fits_of_le (hargs a ha) hle) hne (by rw [hnom]; exact hnew)
    ((h.anchored hbuilt).enterVariant hmade args)
  exact h.bodies hentered (sameButBodies_ensureBody _ b _) (variants_ensureBody _ b _) hanchored

/-- Making instances at arguments that fit. -/
theorem admits (h : Kept P Fits) (args : List TypeId) :
    Admits (fun st => P st ∧ ∀ a ∈ args, Fits st a) args where
  replace {st mapping ty} hst := by
    obtain ⟨hle, hnom⟩ := builds_substituteAll mapping ty st
    exact ⟨h.nominals hst.1 hle hnom, fun a ha => h.fits_of_le (hst.2 a ha) hle⟩
  bindParent {st tag sum} hst := ⟨h.bindParent hst.1 tag sum, fun a ha =>
    h.fits_of_le (hst.2 a ha) (sameButBodies_bindParent st tag sum).le⟩
  enter {st ty d b k} hst hd _ hne hnew hkind := by
    obtain ⟨name, k', params, _, hdecl, -⟩ := (h.anchored hst.1).declares_of_declOf? hd
      (by rw [hkind]; exact k.kind_ne_trait)
    rw [hdecl.nominalArgs] at hne
    rw [hdecl.shape, DeclKind.variantShape_shape]
    exact ⟨h.enterWith hst.1 hdecl hst.2 hne hnew b, fun a ha =>
      h.fits_of_le (hst.2 a ha) (accrues_enterWith _ b hnew).le⟩
  enterOther {st ty d} hst hd hlen hnew hkind := by
    have hanchored := ((Anchored.admits args).enterOther
      ⟨h.anchored hst.1, fun a ha => h.fits_lt (hst.2 a ha)⟩ hd hlen hnew hkind).1
    have hle := intern_le (variantShape (st.shape d) args) st
    have hnom := intern_nominals (variantShape (st.shape d) args) st
    have htrait : st.kind d = .trait := by
      rcases (h.anchored hst.1).madeFrom_of_declOf? hd with ⟨-, htrait⟩ | ⟨_, k, _, _, hdecl, -⟩
      · exact htrait
      · exact absurd hdecl.kind (hkind k)
    have htrait' := (kind_of_le hle (lt_size_of_kind_trait htrait)).trans htrait
    generalize intern (variantShape (st.shape d) args) st = v at hanchored hle hnom htrait' ⊢
    -- what is entered as made from a trait is a trait
    have hlink : (enterVariant d args v.1 v.2).nominals.declOf[v.1]? = some d :=
      Std.HashMap.getElem?_insert_self
    have hv : v.2.kind v.1 = .trait := by
      rcases hanchored.links hlink with ⟨hv, -⟩ | ⟨_, k, _, _, hdecl, -⟩
      · exact hv
      · exact absurd (hdecl.kind.symm.trans htrait') k.kind_ne_trait
    exact ⟨h.enterTrait (h.nominals hst.1 hle hnom) htrait' hv hanchored, fun a ha =>
      h.fits_of_le (hst.2 a ha) hle⟩

/-- Whatever is done, and refused or not, the property is kept. -/
theorem run (h : Kept P Fits) (hst : P st) (hop : op.ArgsFit Fits st) : P (op.run st) := by
  have hbuilt : ∀ {op : Operation}, op.Builds → P (op.run st) := fun hbuilds =>
    h.nominals hst (hbuilds.run st).1 (hbuilds.run st).2
  cases op with
  | construct description => exact hbuilt (.construct description)
  | freshVar => exact hbuilt .freshVar
  | rebuild ty parts => exact hbuilt (.rebuild ty parts)
  | mapVars f ty => exact hbuilt (.mapVars f ty)
  | replaceVar ty var replacement => exact hbuilt (.replaceVar ty var replacement)
  | substituteAll mapping ty => exact hbuilt (.substituteAll mapping ty)
  | instantiateFresh ty => exact hbuilt (.instantiateFresh ty)
  | declare kind name params =>
    refine (gives_declare_of (E := P) (Q := fun _ => P) kind name params (fun _ => hst)
      fun st₁ d vars hle hnom hnew _ hshape hnames => ?_).end fun _ _ hst => hst
    have hst₁ := h.nominals hst hle hnom
    have hnew₁ : st₁.declared? name = none := by
      rw [Store.declared?, hnom]
      exact hnew
    exact h.declare hst₁ hnew₁ hshape hnames.isVar ((h.anchored hst₁).declare hnew₁ hshape)
  | declareTrait name params =>
    obtain ⟨st₁, d, ⟨hle, hnom⟩, -, hkind, heq⟩ := exists_declareTrait name params st
    have hst₁ := h.nominals hst hle hnom
    show P (StoreM.declareTrait name params st).2
    rw [heq]
    exact h.declareTrait hst₁ ((h.anchored hst₁).declareTrait hkind)
  | defineProduct decl fields names =>
    exact preserves_defineProduct (fun hst hself hkind => h.setBody hst hself hkind _) decl fields
      names st hst
  | defineSum sum tags =>
    exact preserves_defineSum (fun hst hself hkind => h.setBody hst hself hkind _)
      (fun hst => h.bindParent hst _ _) sum tags st hst
  | variant parent parts args =>
    exact (preserves_variant (h.admits args) parent parts st ⟨hst, hop⟩).1
  | instantiate ty args => exact (preserves_instantiate (h.admits args) ty st ⟨hst, hop⟩).1
  | instantiateAtFresh ty =>
    have hgives : Gives (DeclM.instantiateAtFresh ty) st P fun _ => P := by
      refine gives_get_bind ?_
      split
      · exact gives_throw hst
      next decl _ =>
      refine (gives_freshVars (E := fun _ => False) (st.nominalArgs decl) st).mono
        (fun _ hf => hf.elim) (fun _ _ h => h) |>.bind fun args st₁ hnew => ?_
      obtain ⟨⟨hle, hnom⟩, hnew, -⟩ := hnew
      refine (gives_of_preserves (preserves_instantiate (h.admits args) decl)
        ⟨h.nominals hst hle hnom, fun a ha => h.fits_var ?_⟩).mono (fun _ h => h.1) fun _ _ h => h.1
      obtain ⟨n, hn⟩ := hnew.fresh a ha
      rw [Store.isVar, hn]
      rfl
    exact hgives.end fun _ _ h => h
  | materialize ty =>
    have hgives : Gives (DeclM.materialize ty) st P fun _ => P := by
      refine gives_get_bind ?_
      split
      · exact gives_pure hst
      · exact (gives_of_preserves (preserves_instantiate (h.admits _) ty)
          ⟨hst, fun _ => h.fits_arg⟩).mono (fun _ h => h.1) fun _ _ h => h.1
    exact hgives.end fun _ _ h => h
  | clearDeclared => exact h.clear hst (h.anchored hst).clearDeclared

theorem runAll (h : Kept P Fits) (hst : P st) (hops : Along (ArgsFit Fits) ops st) :
    P (runAll ops st) := by
  induction ops generalizing st with
  | nil => exact hst
  | cons op ops ih => exact ih (h.run hst hops.1) hops.2

end Kept

end Operation

namespace Store

variable {st st' : Store} {name : Name} {d v : TypeId} {k : DeclKind} {params args : List TypeId}

/-! ## Instances of what is declared -/

/-- An anchored store in which declarations are over variables and instances of declarations are
entered under arguments that they have, up to qualifiers. -/
structure Keyed (st : Store) : Prop where
  anchored : st.Anchored
  vars : ∀ {name : Name} {d : TypeId} {k : DeclKind} {params : List TypeId},
    st.Declares name d k params → ∀ p ∈ params, st.isVar p = true
  entered : ∀ {name : Name} {d v : TypeId} {k : DeclKind} {params args : List TypeId},
    st.Declares name d k params → st.nominals.variants[(d, args)]? = some v →
      (∀ a ∈ args, a < st.size) ∧ st.IsInstance name k args v

theorem keyed_new : Store.new.Keyed where
  anchored := anchored_new
  vars hd := by simpa [declared?_new] using hd.declared
  entered hd := by simpa [declared?_new] using hd.declared

/-- What is added to a keyed store is over variables, and has the arguments it is entered under. -/
theorem Keyed.extend (h : st.Keyed) (h' : st'.Anchored) (hle : st ≤ st')
    (hvars : ∀ {name d k params}, st'.Declares name d k params →
      st.Declares name d k params ∨ ∀ p ∈ params, st'.isVar p = true)
    (hentered : ∀ {name d k params args v}, st'.Declares name d k params →
      st'.nominals.variants[(d, args)]? = some v →
        (st.Declares name d k params ∧ st.nominals.variants[(d, args)]? = some v) ∨
          (∀ a ∈ args, a < st'.size) ∧ st'.IsInstance name k args v) : st'.Keyed where
  anchored := h'
  vars hd := by
    rcases hvars hd with hd | hnew
    · exact fun p hp => (isVar_of_le hle (hd.params_lt p hp)).trans (h.vars hd p hp)
    · exact hnew
  entered hd hv := by
    rcases hentered hd hv with ⟨hd, hv⟩ | hnew
    · obtain ⟨hargs, hinst⟩ := h.entered hd hv
      exact ⟨fun a ha => lt_size_of_le hle (hargs a ha), hinst.of_le hargs hle⟩
    · exact hnew

/-- Where the same is declared and entered. -/
theorem Keyed.of_same (h : st.Keyed) (h' : st'.Anchored) (hle : st ≤ st')
    (hdeclared : st'.nominals.declared = st.nominals.declared)
    (hvariants : st'.nominals.variants = st.nominals.variants) : st'.Keyed :=
  h.extend h' hle (fun hd => .inl (h.anchored.declares_of hle hdeclared hd))
    fun hd hv => .inl ⟨h.anchored.declares_of hle hdeclared hd, by rwa [hvariants] at hv⟩

/-- A declaration at its own parameters. -/
theorem Keyed.isInstance_self (h : st.Keyed) (hd : st.Declares name d k params) :
    st.IsInstance name k params d := by
  refine ⟨hd.lt_size, hd.shape.trans ?_⟩
  congr 1
  refine (List.map_id params).symm.trans (List.map_congr_left fun p hp => ?_)
  obtain ⟨x, hx⟩ := Shape.isVar_iff.mp (h.vars hd p hp)
  exact (bare_of_not_qualified (by rw [id_eq, hx]; rfl)).symm

/-- An instance is of the one shape for its name and arguments, so there is one. -/
theorem IsInstance.unique (h : st.IsInstance name k args v) {v' : TypeId} {args' : List TypeId}
    (h' : st.IsInstance name k args' v') (hargs : args.map st.bare = args'.map st.bare) : v = v' :=
  eq_of_shape_eq h.lt_size h'.lt_size (by rw [h.shape, h'.shape, hargs])

/-- Nothing is entered for what is not declared, unless it is a trait. -/
theorem Anchored.variants_eq_none (h : st.Anchored) (hnew : st.declared? name = none)
    (hshape : st.shape d = k.shape name params) : st.nominals.variants[(d, args)]? = none := by
  by_contra hne
  obtain ⟨v, hv⟩ := Option.ne_none_iff_exists'.mp hne
  have hdecl : ∀ {ty : TypeId}, ¬ st.MadeFrom ty d := by
    rintro ty (⟨-, htrait⟩ | ⟨name', k', params', _, hd, -⟩)
    · rw [Store.kind, hshape, DeclKind.kind_shape] at htrait
      exact k.kind_ne_trait htrait
    · obtain ⟨-, rfl, -⟩ := DeclKind.shape_inj (hd.shape.symm.trans hshape)
      rw [hd.declared] at hnew
      cases hnew
  rcases h.variants hv with ⟨htrait, -⟩ | hlink
  · rw [Store.kind, hshape, DeclKind.kind_shape] at htrait
    exact k.kind_ne_trait htrait
  · exact hdecl (h.links hlink)

theorem variants_enterVariant_cases {d' w : TypeId} {args' : List TypeId}
    (hw : (enterVariant d args v st).nominals.variants[(d', args')]? = some w) :
    (d' = d ∧ args' = args ∧ w = v) ∨ st.nominals.variants[(d', args')]? = some w := by
  change (st.nominals.variants.insert (d, args) v)[(d', args')]? = some w at hw
  rw [Std.HashMap.getElem?_insert] at hw
  split at hw
  · next heq =>
    obtain ⟨rfl, rfl⟩ := Prod.mk.inj (eq_of_beq heq)
    exact .inl ⟨rfl, rfl, (Option.some.inj hw).symm⟩
  · exact .inr hw

theorem declares_enterVariant {name' : Name} {d' : TypeId} {k' : DeclKind} {params' : List TypeId}
    (hd : (enterVariant d args v st).Declares name' d' k' params') : st.Declares name' d' k' params' :=
  ⟨hd.declared, hd.shape⟩

/-- Every operation keeps a store keyed. -/
theorem kept_keyed : Operation.Kept Keyed fun st a => a < st.size where
  anchored h := h.anchored
  fits_lt h := h
  fits_of_le h hle := lt_size_of_le hle h
  fits_var := lt_size_of_isVar
  fits_arg := lt_size_of_mem_nominalArgs
  nominals h hle hnom :=
    h.of_same (h.anchored.of_nominals hle hnom) hle (by rw [hnom]) (by rw [hnom])
  declare {st name d k params} h hnew hshape hvars h' := by
    have hcases : ∀ {name' d' k' params'}, (st.declare name d).Declares name' d' k' params' →
        st.Declares name' d' k' params' ∨ d' = d ∧ params' = params := by
      intro name' d' k' params' hd
      have hname := hd.declared
      rw [declared?_declare] at hname
      split at hname
      · obtain rfl := Option.some.inj hname
        exact .inr ⟨rfl, (DeclKind.shape_inj (hd.shape.symm.trans hshape)).2.2⟩
      · exact .inl ⟨hname, hd.shape⟩
    refine h.extend h' (le_refl st) (fun hd => (hcases hd).imp_right ?_) fun {_ d' _ _ _ _} hd hv => ?_
    · rintro ⟨-, rfl⟩
      exact hvars
    · rcases hcases hd with hd | ⟨rfl, -⟩
      · exact .inl ⟨hd, hv⟩
      · have hv : st.nominals.variants[(d', _)]? = some _ := hv
        rw [h.anchored.variants_eq_none hnew hshape] at hv
        cases hv
  declareTrait {st _} h h' := h.of_same h' (le_refl st) rfl rfl
  bodies h hsame _ h' := h.of_same h' hsame.le hsame.declared hsame.variants
  enter {st name d v k params args} h hd hinst hargs _ _ h' := by
    refine h.extend h' (le_refl st) (fun hd' => .inl (declares_enterVariant hd')) fun hd' hv => ?_
    rcases variants_enterVariant_cases hv with ⟨rfl, rfl, rfl⟩ | hv
    · obtain ⟨rfl, rfl, -⟩ := (declares_enterVariant hd').unique_of_id hd
      exact .inr ⟨hargs, hinst.lt_size, hinst.shape⟩
    · exact .inl ⟨declares_enterVariant hd', hv⟩
  enterTrait {st d v args} h htrait _ h' := by
    refine h.extend h' (le_refl st) (fun hd' => .inl (declares_enterVariant hd')) fun hd' hv => ?_
    rcases variants_enterVariant_cases hv with ⟨rfl, -, -⟩ | hv
    · exact absurd ((declares_enterVariant hd').kind.symm.trans htrait) (DeclKind.kind_ne_trait _)
    · exact .inl ⟨declares_enterVariant hd', hv⟩
  clear {st} h h' := by
    have hnone : ∀ {name d k params}, ¬ st.clearDeclared.Declares name d k params := fun hd => by
      have hname := hd.declared
      rw [declared?_clearDeclared] at hname
      cases hname
    exact ⟨h', fun hd => absurd hd hnone, fun hd => absurd hd hnone⟩

end Store

end ConstraintTyping
