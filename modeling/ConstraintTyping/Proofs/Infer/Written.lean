import ConstraintTyping.Infer.Resolve
import ConstraintTyping.Proofs.Infer.Typing
import ConstraintTyping.Proofs.Types.FreshInstance

/-!
# What a store declares

The declarations of a store, read as trees, are what typings refer to.  They stay the same while
instances are made.  Resolving a written type gives a type whose tree the written type stands for,
variables standing for themselves, and a declared product at fresh variables is the product of the
declarations, opened at these variables.
-/

namespace ConstraintTyping

open Store StoreM TypeTree

/-- The kind of a shape that is declared with a body. -/
def Shape.declKind? {α : Type} : Shape α → Option DeclKind
  | .product _ _ => some .product
  | .sum _ _ => some .sum
  | _ => none

@[simp] theorem DeclKind.declKind?_shape {α : Type} (k : DeclKind) (name : Name) (args : List α) :
    (k.shape name args).declKind? = some k := by
  cases k <;> rfl

/-! ## Declarations of a store -/

namespace Store

variable {st st' : Store} {name : Name} {d v : TypeId} {k : DeclKind} {params args : List TypeId}
  {body : ProductBody}

/-- A product body over parameters, read as trees. -/
def readProduct (st : Store) (params : List TypeId) (body : ProductBody) : ProductDecl where
  params := st.idents params
  fieldNames := body.fieldNames
  fields := body.fields.map st.tree
  parent := body.parent.bind st.nominalName?

/-- What a store declares, read as trees. -/
def declarations (st : Store) : Declarations where
  product? name := (st.declaredProduct? name).bind fun d =>
    (st.productBody? d).map (st.readProduct (st.nominalArgs d))
  type? name := (st.declared? name).bind fun d =>
    (st.shape d).declKind?.map fun k => (k, (st.nominalArgs d).length)

theorem Declares.type? (h : st.Declares name d k params) :
    st.declarations.type? name = some (k, params.length) := by
  simp only [declarations, h.declared, Option.bind_some, h.shape, DeclKind.declKind?_shape,
    Option.map_some, h.nominalArgs]

theorem Declares.declaredProduct? (h : st.Declares name d .product params) :
    st.declaredProduct? name = some d := by
  rw [Store.declaredProduct?, h.declared, Option.filter_some, h.kind]
  rfl

theorem Declares.product? (h : st.Declares name d .product params)
    (hbody : st.productBody? d = some body) :
    st.declarations.product? name = some (st.readProduct params body) := by
  simp only [declarations, h.declaredProduct?, Option.bind_some, hbody, Option.map_some,
    h.nominalArgs]

theorem declares_of_declaredProduct? (hco : st.Coherent) (h : st.declaredProduct? name = some d) :
    ∃ params, st.Declares name d .product params := by
  obtain ⟨hdecl, hkind⟩ := Option.filter_eq_some_iff.mp h
  obtain ⟨-, k, params, hd, -⟩ := hco.declares hdecl
  rw [decide_eq_true_eq, hd.kind] at hkind
  cases k with
  | product => exact ⟨params, hd⟩
  | sum => cases hkind

/-- A product of the declarations is a declared product with a body. -/
theorem exists_of_product? {p : ProductDecl} (hco : st.Coherent)
    (h : st.declarations.product? name = some p) :
    ∃ d params body, st.Declares name d .product params ∧ st.productBody? d = some body ∧
      p = st.readProduct params body := by
  obtain ⟨d, hd, hp⟩ := Option.bind_eq_some_iff.mp h
  obtain ⟨params, hd⟩ := declares_of_declaredProduct? hco hd
  obtain ⟨body, hbody, rfl⟩ := Option.map_eq_some_iff.mp hp
  exact ⟨d, params, body, hd, hbody, by rw [hd.nominalArgs]⟩

theorem readProduct_of_le (hle : st ≤ st') (hparams : ∀ p ∈ params, p < st.size)
    (hbody : ∀ c ∈ (Body.product body).parts, c < st.size) :
    st'.readProduct params body = st.readProduct params body := by
  have hfields : body.fields.map st'.tree = body.fields.map st.tree :=
    map_tree_of_le hle fun f hf => hbody f (List.mem_append_left _ hf)
  have hparent : body.parent.bind st'.nominalName? = body.parent.bind st.nominalName? := by
    cases hp : body.parent with
    | none => rfl
    | some sum =>
      have hlt : sum < st.size := hbody sum (List.mem_append_right _ (by simp [hp]))
      rw [Option.bind_some, Option.bind_some, nominalName?, nominalName?, shape_of_le hle hlt]
  rw [readProduct, readProduct, idents_of_le hle hparams, hfields, hparent]

theorem type?_of_advances (hco : st.Coherent) (hadv : st.Advances st') :
    st'.declarations.type? = st.declarations.type? := by
  funext name
  cases h : st.declared? name with
  | none => simp only [declarations, h, hadv.declared? name, Option.bind_none]
  | some d =>
    obtain ⟨-, k, params, hd, -⟩ := hco.declares h
    rw [hd.type?, (hadv.declares hd).type?]

/-- Making instances changes no declaration. -/
theorem declarations_of_advances (hco : st.Coherent) (hcomp : st.Complete)
    (hco' : st'.Coherent) (hadv : st.Advances st') : st'.declarations = st.declarations := by
  have hproduct : st'.declarations.product? = st.declarations.product? := by
    funext name
    cases h : st.declarations.product? name with
    | some p =>
      obtain ⟨d, params, body, hd, hbody, rfl⟩ := exists_of_product? hco h
      rw [(hadv.declares hd).product? (hadv.productBody? hd.declared hbody),
        readProduct_of_le hadv.le hd.params_lt (hco.bodies (productBody?_eq_some.mp hbody)).2]
    | none =>
      rw [Option.eq_none_iff_forall_ne_some]
      intro p hp
      obtain ⟨d, params, body', hd', -, -⟩ := exists_of_product? hco' hp
      have hd := hadv.declares_of hco hd'
      obtain ⟨body, hbody⟩ := hcomp.product hd
      rw [hd.product? hbody] at h
      cases h
  exact congrArg₂ Declarations.mk hproduct (type?_of_advances hco hadv)

/-- A store holds the declarations `D`, each with its body. -/
structure Implements (st : Store) (D : Declarations) : Prop where
  coherent : st.Coherent
  complete : st.Complete
  declarations : st.declarations = D

theorem Implements.of_endsWell {D : Declarations} (h : st.Implements D)
    (hends : DeclM.EndsWell st st') : st'.Implements D where
  coherent := hends.2
  complete := hends.1.complete h.coherent h.complete
  declarations :=
    (declarations_of_advances h.coherent h.complete hends.2 hends.1).trans h.declarations

/-- A parameter list of variables has one name for each. -/
theorem length_idents (hvars : ∀ p ∈ params, st.isVar p = true) :
    (st.idents params).length = params.length := by
  induction params with
  | nil => rfl
  | cons p params ih =>
    obtain ⟨hp, hrest⟩ := List.forall_mem_cons.mp hvars
    obtain ⟨x, hx⟩ := Shape.isVar_iff.mp hp
    rw [idents, List.filterMap_cons, hx]
    exact congrArg (· + 1) (ih hrest)

theorem IsInstance.nominalName? (h : st.IsInstance name k args v) :
    st.nominalName? v = some name := by
  rw [Store.nominalName?, h.shape]
  cases k <;> rfl

end Store

/-! ## Products at types -/

section Product

variable {st : Store} {name : Name} {d v : TypeId} {params args : List TypeId}
  {decl body : ProductBody}

/-- The types in the body of an instance are of the store. -/
theorem DeclM.IsProductAt.body_lt (h : DeclM.IsProductAt st name d params args decl v body)
    (hco : st.Coherent) : (∀ f ∈ body.fields, f < st.size) ∧ body.parent.getD v < st.size := by
  have hparts := (hco.bodies (productBody?_eq_some.mp h.productBody)).2
  refine ⟨fun f hf => hparts f (List.mem_append_left _ hf), ?_⟩
  cases hparent : body.parent with
  | none => exact h.isInstance.lt_size
  | some sum => exact hparts sum (List.mem_append_right _ (by simp [hparent]))

/-- An instance of a product is the declared product at the trees of its arguments. -/
theorem DeclM.IsProductAt.read (h : DeclM.IsProductAt st name d params args decl v body)
    (hco : st.Coherent) (hd : st.Declares name d .product params) :
    let p := st.readProduct params decl
    p.params.length = args.length ∧ body.fieldNames = p.fieldNames ∧
      body.fields.map st.tree = p.fieldsAt var (args.map st.tree) ∧
      st.tree (body.parent.getD v) = p.result name (args.map st.tree) := by
  intro p
  have hlen : p.params.length = args.length := by
    rw [h.length_args]
    obtain ⟨-, k, params', hd', hvars⟩ := hco.declares hd.declared
    obtain ⟨-, -, rfl⟩ := hd.unique hd'
    exact length_idents hvars
  refine ⟨hlen, h.isBodyAt.fieldNames, ?_, ?_⟩
  · rw [h.isBodyAt.fields, ProductDecl.fieldsAt]
    exact (List.map_map ..).symm
  · have hread : p.parent = decl.parent.bind st.nominalName? := rfl
    unfold ProductDecl.result
    cases hparent : decl.parent with
    | none =>
      rw [hread, hparent, Option.bind_none]
      have hnone : body.parent = none := by
        cases hs : body.parent with
        | none => rfl
        | some s =>
          obtain ⟨sum, sumName, hdecl, -⟩ := h.isBodyAt.parent s hs
          rw [hparent] at hdecl
          cases hdecl
      rw [hnone]
      exact h.isInstance.tree_eq
    | some sum =>
      obtain ⟨s, hs⟩ := h.tied sum hparent
      obtain ⟨sum', sumName, hdecl, hsum, hinst⟩ := h.isBodyAt.parent s hs
      obtain rfl := Option.some.inj (hparent.symm.trans hdecl)
      rw [hread, hparent, Option.bind_some, (hsum.isInstance hco).nominalName?, hs]
      exact hinst.tree_eq

end Product

/-! ## Function types -/

/-- The constituents of a signature without obligations. -/
theorem Signature.children_lt {n ret : Nat} {params : List Nat} (hret : ret < n)
    (hparams : ∀ p ∈ params, p < n) :
    ∀ c ∈ ({ ret, params } : Signature TypeId).children, c < n := by
  intro c hc
  simp only [Signature.children, List.append_nil, List.mem_cons] at hc
  rcases hc with rfl | hc
  · exact hret
  · exact hparams c hc

/-! ## Resolving -/

section Rules

variable {ε ε' α β : Type} {st : Store} {E E' : Store → Prop}

/-- Types are built. -/
theorem StoreM.gives_build {act : StoreM α} {Q : α → Store → Prop} (hco : st.Coherent)
    (hbuilds : act.Builds) (h : Q (act st).1 (act st).2) :
    Gives (liftM act : ExceptT ε StoreM α) st E fun a st' => DeclM.EndsWell st st' ∧ Q a st' := by
  obtain ⟨hle, hnom⟩ := hbuilds st
  exact gives_lift ⟨⟨.of_nominals hle hnom, hco.of_nominals hle hnom⟩, h⟩

/-- A computation that can be refused is run, and what follows looks at how it ended. -/
theorem StoreM.gives_run_bind {act : ExceptT ε StoreM α} {Q : α → Store → Prop}
    {f : Except ε α → ExceptT ε' StoreM β} {R : β → Store → Prop} (h : Gives act st E Q)
    (hok : ∀ a st', Q a st' → Gives (f (.ok a)) st' E' R)
    (herror : ∀ e st', E st' → Gives (f (.error e)) st' E' R) :
    Gives ((liftM act.run : ExceptT ε' StoreM (Except ε α)) >>= f) st E' R := by
  have hlift : Gives (liftM act.run : ExceptT ε' StoreM (Except ε α)) st E' fun r st' =>
      Gives (f r) st' E' R := by
    refine gives_lift ?_
    rcases h with ⟨a, st', hrun, ha⟩ | ⟨e, st', hrun, he⟩
    · rw [hrun]
      exact hok a st' ha
    · rw [hrun]
      exact herror e st' he
  exact hlift.bind fun r st' hr => hr

end Rules

section Resolve

variable {st : Store} {D : Declarations} {name : Name} {d : TypeId} {k : DeclKind}
  {params args : List TypeId}

/-- A type resolves well when its tree is one that the written type stands for. -/
def Resolves (D : Declarations) (st : Store) (w : TypeExpr) (ty : TypeId) : Prop :=
  ty < st.size ∧ D.Denotes var w (st.tree ty)

theorem Resolves.of_le {st' : Store} {w : TypeExpr} {ty : TypeId} (h : Resolves D st w ty)
    (hle : st ≤ st') : Resolves D st' w ty :=
  ⟨lt_size_of_le hle h.1, by rw [tree_of_le hle h.1]; exact h.2⟩

/-- Resolving does not give the error type. -/
theorem Resolves.whole {w : TypeExpr} {ty : TypeId} (h : Resolves D st w ty) : st.Whole ty :=
  ⟨h.1, h.2.faultless faultless_var⟩

theorem gives_instantiateWritten (span : Span) (hco : st.Coherent)
    (hd : st.Declares name d k params) (hargs : ∀ a ∈ args, st.Whole a) :
    Gives (instantiateWritten span name d args) st (DeclM.EndsWell st) fun ty st' =>
      params.length = args.length ∧ DeclM.Made name k args st ty st' := by
  unfold instantiateWritten
  refine gives_get_bind ?_
  rw [hd.nominalArgs]
  by_cases hlen : params.length = args.length
  · simp only [hlen, ne_eq, not_true_eq_false, if_false]
    refine gives_run_bind (DeclM.gives_instantiate hco hd hargs) ?_ ?_
    · intro ty st' hty
      exact gives_pure ⟨trivial, hty⟩
    · intro e st' hends
      exact gives_throw hends
  · simp only [ne_eq, hlen, not_false_eq_true, if_true]
    exact gives_throw ⟨.refl st, hco⟩

/-- Resolving is an advance that keeps coherence, and what it gives is what is written. -/
def ResolvesWell (D : Declarations) (span : Span) (w : TypeExpr) : Prop :=
  ∀ st : Store, st.Coherent → st.declarations.type? = D.type? →
    Gives (w.resolve span) st (DeclM.EndsWell st) fun ty st' =>
      DeclM.EndsWell st st' ∧ Resolves D st' w ty

theorem gives_resolveAll {span : Span} {ws : List TypeExpr} (hco : st.Coherent)
    (htype : st.declarations.type? = D.type?) (h : ∀ w ∈ ws, ResolvesWell D span w) :
    Gives (resolveAll span ws) st (DeclM.EndsWell st) fun tys st' =>
      DeclM.EndsWell st st' ∧ List.Forall₂ (Resolves D st') ws tys := by
  induction ws generalizing st with
  | nil => exact gives_pure ⟨⟨.refl st, hco⟩, .nil⟩
  | cons w ws ih =>
    obtain ⟨hw, hws⟩ := List.forall_mem_cons.mp h
    rw [resolveAll]
    refine (hw st hco htype).bind fun ty st₁ hty => ?_
    obtain ⟨⟨hadv, hco₁⟩, hty⟩ := hty
    refine Gives.bind ((ih hco₁ ((type?_of_advances hco hadv).trans htype) hws).mono ?_ fun _ _ h => h) ?_
    · intro st₂ hends
      exact ⟨hadv.trans hends.1, hends.2⟩
    · intro tys st₂ htys
      exact gives_pure ⟨⟨hadv.trans htys.1.1, htys.1.2⟩, .cons (hty.of_le htys.1.1.le) htys.2⟩

/-- The types that written types resolve to are of the store, and the written types stand for their
trees. -/
theorem resolves_list {ws : List TypeExpr} {tys : List TypeId}
    (h : List.Forall₂ (Resolves D st) ws tys) :
    (∀ ty ∈ tys, ty < st.size) ∧ List.Forall₂ (D.Denotes var) ws (tys.map st.tree) := by
  constructor
  · intro ty hty
    obtain ⟨w, -, hw⟩ := exists_mem_of_forall₂ h hty
    exact hw.1
  · exact List.forall₂_map_right_iff.mpr (h.imp fun _ _ h => h.2)

/-- What follows the resolution of one written type. -/
theorem ResolvesWell.bind {span : Span} {w : TypeExpr} {β : Type} {f : TypeId → ResolveM β}
    {Q : β → Store → Prop} (h : ResolvesWell D span w) (hco : st.Coherent) (htype : st.declarations.type? = D.type?)
    (hf : ∀ ty st', DeclM.EndsWell st st' → Resolves D st' w ty →
      Gives (f ty) st' (DeclM.EndsWell st') fun b st'' => DeclM.EndsWell st' st'' ∧ Q b st'') :
    Gives (w.resolve span >>= f) st (DeclM.EndsWell st) fun b st' =>
      DeclM.EndsWell st st' ∧ Q b st' := by
  refine (h st hco htype).bind fun ty st' hty => ?_
  refine (hf ty st' hty.1 hty.2).mono ?_ ?_
  · intro st'' hends
    exact ⟨hty.1.1.trans hends.1, hends.2⟩
  · intro b st'' hb
    exact ⟨⟨hty.1.1.trans hb.1.1, hb.1.2⟩, hb.2⟩

theorem resolvesWell_named {span : Span} {ws : List TypeExpr}
    (h : ∀ w ∈ ws, ResolvesWell D span w) : ResolvesWell D span (.named name ws) := by
  intro st hco htype
  rw [TypeExpr.resolve]
  split
  · next p hws hp =>
    obtain rfl := List.isEmpty_iff.mp hws
    refine gives_pure ⟨⟨.refl st, hco⟩, lt_size_of_prim p, ?_⟩
    rw [tree_prim]
    exact .prim hp
  · next hprim =>
    have hname : ws = [] → Prim.ofName? name = none := by
      rintro rfl
      exact Option.eq_none_iff_forall_ne_some.mpr fun p hp => hprim p rfl hp
    refine gives_get_bind ?_
    cases hdecl : st.declared? name with
    | none => exact gives_throw ⟨.refl st, hco⟩
    | some d =>
      obtain ⟨-, k, params, hd, -⟩ := hco.declares hdecl
      refine (gives_resolveAll hco htype h).bind fun tys st' htys => ?_
      obtain ⟨⟨hadv, hco'⟩, htys⟩ := htys
      obtain ⟨hlt, hdenotes⟩ := resolves_list htys
      have hwhole : ∀ ty ∈ tys, st'.Whole ty := fun ty hty => by
        obtain ⟨w, -, hw⟩ := exists_mem_of_forall₂ htys hty
        exact hw.whole
      refine (gives_instantiateWritten span hco' (hadv.declares hd) hwhole).mono ?_ ?_
      · intro st'' hends
        exact ⟨hadv.trans hends.1, hends.2⟩
      · intro ty st'' hty
        obtain ⟨hlen, ⟨hadv', hco''⟩, hinst⟩ := hty
        refine ⟨⟨hadv.trans hadv', hco''⟩, hinst.lt_size, ?_⟩
        rw [hinst.tree_eq, map_tree_of_le hadv'.le hlt]
        refine .declared hname ?_ hdenotes
        rw [← htype, hd.type?, htys.length_eq, hlen]

/-- Every written type resolves well, or ends in a fault that leaves the store as good. -/
theorem resolvesWell (D : Declarations) (span : Span) (w : TypeExpr) : ResolvesWell D span w := by
  induction w using TypeExpr.induction with
  | named name args ih => exact resolvesWell_named ih
  | var name =>
    intro st hco htype
    rw [TypeExpr.resolve]
    obtain ⟨-, hlt, hread⟩ := yields_namedVar name st
    refine gives_build hco (builds_intern _) ⟨hlt, ?_⟩
    rw [hread]
    exact .var
  | pointer target ih =>
    intro st hco htype
    rw [TypeExpr.resolve]
    refine ih.bind hco htype fun ty st' hends hty => ?_
    obtain ⟨-, hlt, hread⟩ := yields_pointer hty.1
    refine gives_build hends.2 (builds_intern _) ⟨hlt, ?_⟩
    rw [hread]
    exact .pointer hty.2
  | array elem length ih =>
    intro st hco htype
    rw [TypeExpr.resolve]
    refine ih.bind hco htype fun ty st' hends hty => ?_
    obtain ⟨-, hlt, hread⟩ := yields_array length hty.1
    refine gives_build hends.2 (builds_intern _) ⟨hlt, ?_⟩
    rw [hread]
    exact .array hty.2
  | tuple items ih =>
    intro st hco htype
    rw [TypeExpr.resolve]
    refine (gives_resolveAll hco htype ih).bind fun tys st' htys => ?_
    obtain ⟨⟨hadv, hco'⟩, htys⟩ := htys
    obtain ⟨hlt, hdenotes⟩ := resolves_list htys
    obtain ⟨-, hlt', hread⟩ := yields_tuple hlt
    refine (gives_build (E := DeclM.EndsWell st) hco' (builds_tuple tys) ⟨hlt', ?_⟩).mono
      (fun _ h => h) fun ty st'' h => ⟨⟨hadv.trans h.1.1, h.1.2⟩, h.2⟩
    rw [hread]
    exact .tuple hdenotes
  | function params ret ihs ih =>
    intro st hco htype
    rw [TypeExpr.resolve]
    refine (gives_resolveAll hco htype ihs).bind fun tys st₁ htys => ?_
    obtain ⟨⟨hadv, hco₁⟩, htys⟩ := htys
    refine Gives.mono (ih.bind hco₁ ((type?_of_advances hco hadv).trans htype) fun ty st₂ hends hty => ?_) ?_
      fun ty st'' h => ⟨⟨hadv.trans h.1.1, h.1.2⟩, h.2⟩
    · obtain ⟨hlt, hdenotes⟩ := resolves_list (htys.imp fun _ _ h => h.of_le hends.1.le)
      obtain ⟨-, hlt', hread⟩ := yields_function (Signature.children_lt hty.1 hlt)
      refine gives_build hends.2 (builds_intern _) ⟨hlt', ?_⟩
      rw [hread]
      exact .function hdenotes hty.2
    · intro st₂ hends
      exact ⟨hadv.trans hends.1, hends.2⟩
  | qualified q base ih =>
    intro st hco htype
    rw [TypeExpr.resolve]
    refine ih.bind hco htype fun ty st' hends hty => ?_
    obtain ⟨-, hlt, hbare⟩ := yields_qualify q hty.1
    refine gives_build hends.2 (builds_qualify q ty) ⟨hlt, ?_⟩
    rw [← tree_bare, hbare, tree_of_le (builds_qualify q ty st').1 (bare_lt_size hty.1), tree_bare]
    exact .qualified hty.2

end Resolve

end ConstraintTyping
