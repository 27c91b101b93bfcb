import ConstraintTyping.Proofs.Check.ErrorFree
import ConstraintTyping.Proofs.Check.Lasting
import ConstraintTyping.Proofs.Check.Registered
import ConstraintTyping.Proofs.Check.WellTyped
import ConstraintTyping.Proofs.Infer.Coverage
import ConstraintTyping.Proofs.Types.Materialized

/-!
# Types of expressions are materialized

The last step of a check goes over the types of expressions and materializes those that are without
variables and without the error type.  Nothing in a check, with errors or without, builds a product
or sum that is not accounted for, so none of them is left without a body.
-/

namespace ConstraintTyping

open Store StoreM TypeTree CheckState

/-- Below its qualifiers a type occurs in the qualified type. -/
theorem Store.reflTransGen_bare (st : Store) (ty : TypeId) :
    Relation.ReflTransGen (fun a b => b ∈ st.children a) ty (st.bare ty) := by
  induction ty using Nat.strongRecOn with
  | ind ty ih =>
    cases hq : (st.shape ty).isQualified with
    | false => rw [bare_of_not_qualified hq]
    | true =>
      obtain ⟨q, base, hshape⟩ := isQualified_iff.mp hq
      have hmem : base ∈ st.children ty := by
        show base ∈ (st.shape ty).children
        simp [hshape, Shape.children]
      rw [bare_of_qualified hshape]
      exact .head hmem (ih base (lt_of_mem_children hmem))

/-- A constituent of the tree of a type is the tree of a type that occurs in it. -/
theorem Store.exists_part_of_tree {st : Store} {ty : TypeId} {s : Shape TypeTree} {t : TypeTree}
    (h : st.tree ty = .mk s) (ht : t ∈ s.children) :
    ∃ c, Relation.ReflTransGen (fun a b => b ∈ st.children a) ty (st.bare c) ∧ st.tree c = t := by
  have hshape := shape_tree st ty
  rw [h, shape_mk] at hshape
  rw [hshape, Shape.children_map] at ht
  obtain ⟨c, hc, rfl⟩ := List.mem_map.mp ht
  exact ⟨c, ((st.reflTransGen_bare ty).tail hc).trans (st.reflTransGen_bare c), rfl⟩

theorem Store.kind_bare_of_tree {st : Store} {ty : TypeId} {s : Shape TypeTree}
    (h : st.tree ty = .mk s) : st.kind (st.bare ty) = s.kind := by
  have hshape := shape_tree st ty
  rw [h, shape_mk] at hshape
  rw [hshape, Shape.kind_map]
  rfl

/-- What is declared or an instance has a body, if the declarations have. -/
theorem Store.Owned.body {st : Store} {ty : TypeId} {k : DeclKind} (howned : st.Owned ty)
    (h : st.Accounted) (hcomp : st.Complete) (hkind : st.kind ty = k.kind) :
    (st.nominals.bodies[ty]?).isSome = true ∧
      ((∃ name, st.declared? name = some ty) ∨ ty ∈ st.variants) := by
  rcases howned with ⟨name, hname⟩ | ⟨key, hkey⟩
  · refine ⟨?_, .inl ⟨name, hname⟩⟩
    obtain ⟨k', params, hd⟩ := h.declares hname
    cases k' with
    | product =>
      obtain ⟨body, hbody⟩ := hcomp.product hd
      rw [productBody?_eq_some.mp hbody]
      rfl
    | sum =>
      obtain ⟨tags, htags⟩ := hcomp.sum hd
      rw [sumTags?_eq_some.mp htags]
      rfl
  · have hentered := h.variants hkey
    exact ⟨hentered.body k hkind, .inr hentered.listed⟩

namespace CheckM

variable {s : CheckState} {config : CheckConfig} {gs : List (List FunctionDecl)}

/-- However far the groups are checked, the state is one that bodies can be checked in. -/
theorem ready_checkGroups (h : s.Ready gs) : (checkGroups config gs s).2.Ready [] := by
  induction gs generalizing s with
  | nil => exact h
  | cons group gs ih =>
    have hchecks : Checks config group s (checkGroup config group s).2 :=
      ends_checkGroup config h.registered h.within (h.waits group List.mem_cons_self)
    rw [checkGroups_cons]
    split
    · exact @Ready.of_append _ [] gs (hchecks.ready h)
    · exact ih (hchecks.ready h)

theorem store_forM_build (act : TypeId → StoreM Unit) (types : List TypeId) (s : CheckState) :
    (types.forM (fun ty => build (act ty)) s).2.store = (types.forM act s.store).2 := by
  induction types generalizing s with
  | nil => rfl
  | cons ty types ih => exact ih (build (act ty) s).2

/-- In the end the types of expressions are materialized. -/
theorem materialized_materializeExprTypes (hready : s.Ready []) (h : s.store.Accounted) {id : ExprId}
    {ty : TypeId} (hty : s.exprTypes[id]? = some ty) (hclosed : s.store.isGeneric ty = false)
    (herror : s.store.hasError ty = false) :
    (materializeExprTypes s).2.store.Materialized ty := by
  have hmem : ∀ ty, ty ∈ ((s.exprTypes.toList.map Prod.snd).mergeSort (· ≤ ·)).eraseDups ↔
      ∃ id : ExprId, s.exprTypes[id]? = some ty := fun ty => by
    rw [List.mem_eraseDups, List.mem_mergeSort, List.mem_map]
    simp only [Prod.exists, exists_eq_right, Std.HashMap.mem_toList_iff_getElem?_eq_some]
  have hstore := store_forM_build materializeAll
    ((s.exprTypes.toList.map Prod.snd).mergeSort (· ≤ ·)).eraseDups s
  rw [show (materializeExprTypes s).2.store = _ from hstore]
  generalize ((s.exprTypes.toList.map Prod.snd).mergeSort (· ≤ ·)).eraseDups = types at hmem
  obtain ⟨-, hall⟩ := @materialized_forM _ _ (fun ty : TypeId => ty) types h
    hready.registered.coherent hready.registered.traced
    (fun ty hty => hready.exprType ((hmem ty).mp hty).choose_spec)
    fun _ _ => materialized_materializeAll
  exact hall ty ((hmem ty).mpr ⟨id, hty⟩) hclosed herror

end CheckM

/-- A construction with one field. -/
theorem FindM.infer_construct_oneField {name : Name} {context : FindContext} {st st₁ : FindState}
    {d v field argTy : TypeId} {names : List (Option Name)} {arg : Expr} {store' : Store}
    (harg : arg.infer context st = (argTy, st₁)) (hd : st₁.store.declaredProduct? name = some d)
    (hfresh : freshProduct d context st₁ = (some (v, ⟨[field], names, none⟩),
      { st₁ with store := store' })) (id : ExprId) (span : Span) :
    (Expr.mk id span (.construct name [arg])).infer context st = (v, { st₁ with
      store := store'
      finding := { st₁.finding with
        constraints := st₁.finding.constraints.push (.equal field argTy arg.span .field)
        exprTypes := st₁.finding.exprTypes.insert id v } }) := by
  have hrun : (Expr.mk id span (.construct name [arg])).infer context st =
      (do
        let ty ← constructRule name span [(arg.infer context st).1] [arg.span]
        record id ty) context (arg.infer context st).2 := rfl
  rw [hrun, harg, bind_apply, constructRule, query_bind, hd]
  dsimp only
  rw [bind_apply, hfresh]
  rfl

/-- A construction has the type that a declared product gives. -/
theorem HasType.exists_productAt {J : Typing} {Γ Δ : Env} {id : ExprId} {span : Span} {name : Name}
    {items : List Expr} {t : TypeTree}
    (h : HasType J Γ (.mk id span (.construct name items)) t Δ) : ∃ p args fields ts,
      AllHaveType J Γ items ts Δ ∧ J.ProductAt name p args fields ∧
        List.Forall₂ J.Agrees fields ts ∧ J.exprType id = p.result name args := by
  cases h with
  | mk hform =>
    generalize J.exprType id = t at hform
    cases hform with
    | literal h => cases h
    | construct hitems hproduct hfields => exact ⟨_, _, _, _, hitems, hproduct, hfields, rfl⟩

theorem HasType.type_eq {J : Typing} {Γ Δ : Env} {id : ExprId} {span : Span} {form : ExprForm}
    {t : TypeTree} (h : HasType J Γ (.mk id span form) t Δ) : t = J.exprType id := by
  cases h
  rfl

theorem HasType.exists_tuple {J : Typing} {Γ Δ : Env} {id : ExprId} {span : Span}
    {items : List Expr} {t : TypeTree} (h : HasType J Γ (.mk id span (.tuple items)) t Δ) :
    ∃ ts, AllHaveType J Γ items ts Δ ∧ J.exprType id = TypeTree.tuple ts := by
  cases h with
  | mk hform =>
    generalize J.exprType id = t at hform
    cases hform with
    | literal h => cases h
    | tuple hitems => exact ⟨_, hitems, rfl⟩

theorem HasType.exprType_bool {J : Typing} {Γ Δ : Env} {id : ExprId} {span : Span} {value : Bool}
    {t : TypeTree} (h : HasType J Γ (.mk id span (.bool value)) t Δ) :
    t = prim .bool := by
  cases h with
  | mk hform =>
    generalize J.exprType id = t at hform
    cases hform with
    | literal h => cases h; rfl

theorem AllHaveType.exists_singleton {J : Typing} {Γ Δ : Env} {e : Expr} {ts : List TypeTree}
    (h : AllHaveType J Γ [e] ts Δ) : ∃ t, ts = [t] ∧ HasType J Γ e t Δ := by
  cases h with
  | cons he hrest => cases hrest; exact ⟨_, rfl, he⟩

/-! ## A box in a tuple -/

/-- The declaration `Box 't = { value : 't }`. -/
def boxDecl : TypeDecl :=
  ⟨"Box", ["t"], .product [⟨some "value", .var "t", Span.none⟩], Span.none⟩

/-- The expression `(Box(true),)`. -/
def boxedBody : Expr :=
  .mk 2 Span.none (.tuple [.mk 1 Span.none (.construct "Box" [.mk 0 Span.none (.bool true)])])

/-- The function `use() -> 'v = (Box(true),)`. -/
def boxModule : Module where
  types := [boxDecl]
  functions := [useFn (some (.var "v")) boxedBody]

theorem groups_boxModule : boxModule.groups = [[useFn (some (.var "v")) boxedBody]] := by
  have hgroups : boxModule.bodyGroups = [[0]] := congrArg ([·]) (List.mergeSort_singleton 0)
  rw [Module.groups, hgroups]
  rfl

/-- The box as it is declared: the type of its field is its parameter. -/
structure Store.HasBox (st : Store) (box param : TypeId) : Prop where
  named : st.shape param = .var (.named "t")
  declares : st.Declares "Box" box .product [param]
  body : st.productBody? box = some ⟨[param], [some "value"], none⟩

theorem Store.HasBox.of_advances {st st' : Store} {box param : TypeId} (h : st.HasBox box param)
    (hadv : st.Advances st') : st'.HasBox box param where
  named := (shape_of_le hadv.le (lt_size_of_shape_var h.named)).trans h.named
  declares := hadv.declares h.declares
  body := hadv.productBody? h.declares.declared h.body

/-- An instance of the box is over one type, which is that of its field. -/
theorem Store.HasBox.instance {st : Store} {box param v : TypeId} {args : List TypeId}
    {decl body : ProductBody} (h : st.HasBox box param)
    (hv : DeclM.IsProductAt st "Box" box [param] args decl v body) : ∃ arg field,
      args = [arg] ∧ body = ⟨[field], [some "value"], none⟩ ∧ st.tree field = st.tree arg ∧
        st.tree v = .mk (.product "Box" [st.tree arg]) := by
  obtain ⟨arg, rfl⟩ := List.length_eq_one_iff.mp hv.length_args
  obtain rfl := Option.some.inj (hv.declBody.symm.trans h.body)
  obtain ⟨fields, names, parent⟩ := body
  obtain rfl : names = _ := hv.isBodyAt.fieldNames
  have hfields := hv.isBodyAt.fields
  obtain ⟨field, rfl⟩ : ∃ field, fields = [field] :=
    List.length_eq_one_iff.mp (by simpa using congrArg List.length hfields)
  obtain rfl : parent = none := Option.eq_none_iff_forall_ne_some.mpr fun s hs => by
    obtain ⟨_, _, hnone, -⟩ := hv.isBodyAt.parent s hs
    cases hnone
  refine ⟨arg, field, rfl, rfl, ?_, hv.isInstance.tree_eq⟩
  rw [List.map_singleton, List.map_singleton, List.singleton_inj, tree_of_var h.named] at hfields
  rw [hfields, subst_var]
  simp [assign, idents, h.named, Shape.varIdent?]

theorem prepared_boxModule : (boxModule.prepared {} {}).Clean ∧
    ∃ box param, (boxModule.prepared {} {}).store.HasBox box param := by
  obtain ⟨hinitial, -, hlog⟩ := Module.initial_start {} {}
  have hstart : (Module.start {} {}).Clean := congrArg DiagnosticLog.errorCount hlog
  have hregistered : boxModule.registered {} {} =
      (CheckM.registerTypes [boxDecl] (Module.start {} {})).2 := rfl
  have hcollected := boxModule.collected_registered {} {}
  have hgoes := boxModule.goesOn_collected {} {} boxModule.functions
  obtain ⟨hclean, box, params, types, hparams, hd, htypes, hbody⟩ :=
    @CheckM.ends_registerTypes_record _ boxDecl _ ["t"] hinitial.declaring hstart rfl rfl
  rw [← hregistered] at hclean hparams hd htypes hbody
  obtain rfl := hparams.unique htypes
  obtain ⟨param, _, hparam, hnil, rfl⟩ := List.forall₂_cons_left_iff.mp hparams
  obtain rfl := List.forall₂_nil_left_iff.mp hnil
  have hbox : (boxModule.registered {} {}).store.HasBox box param := ⟨hparam, hd, hbody⟩
  have hfree : ∀ f ∈ boxModule.functions,
      (boxModule.registered {} {}).globals.contains f.name = false := fun f _ => by
    cases hg : (boxModule.registered {} {}).globals[f.name]? with
    | none => rw [Std.HashMap.contains_eq_isSome_getElem?, hg, Option.isSome_none]
    | some g =>
      obtain ⟨_, hnone, -⟩ := hcollected.global hg
      cases hnone
  have hreadable : ∀ f ∈ boxModule.functions,
      f.Readable (boxModule.registered {} {}).traits :=
    List.forall_mem_singleton.mpr (readable_useFn (by rintro w ⟨⟩; exact readable_var "v") _)
  obtain ⟨hlog', -⟩ :=
    CheckM.ends_collectSignatures_readable hreadable (by simp [boxModule]) hfree
  exact ⟨(congrArg DiagnosticLog.errorCount hlog').trans hclean, box, param,
    hbox.of_advances hgoes.store.1⟩

/-- The box is made at a fresh variable, which has to be the type of its field. -/
theorem infer_boxedBody {context : FindContext} {st : FindState} {box param : TypeId}
    (hco : st.store.Coherent) (hcomp : st.store.Complete) (hbox : st.store.HasBox box param) :
    ∃ k field tuple store' types, st.store ≤ store' ∧ store'.tree field = var (.fresh k) ∧
      store'.tree tuple = TypeTree.tuple [.mk (.product "Box" [var (.fresh k)])] ∧
      boxedBody.infer context st = (tuple, { st with
        store := store'
        finding := { st.finding with
          constraints := st.finding.constraints.push (.equal field TypeId.bool Span.none .field)
          exprTypes := types } }) := by
  have hlit : (Expr.mk 0 Span.none (.bool true)).infer context st = (TypeId.bool,
      { st with finding.exprTypes := st.finding.exprTypes.insert 0 TypeId.bool }) := rfl
  obtain ⟨args, decl, v, body, store₁, hnew, hadv, hco₁, hproduct, hfresh⟩ :=
    @FindM.exists_freshProduct "Box"
      { st with finding.exprTypes := st.finding.exprTypes.insert 0 TypeId.bool } _ _ hco hcomp
      hbox.declares context
  obtain ⟨arg, field, rfl, rfl, hfield, hv⟩ := (hbox.of_advances hadv).instance hproduct
  obtain ⟨k, hk⟩ := hnew.fresh arg (List.mem_singleton_self arg)
  rw [tree_of_var hk] at hfield hv
  have hconstruct := FindM.infer_construct_oneField hlit hbox.declares.declaredProduct? hfresh 1
    Span.none
  obtain ⟨hsteps, -, htuple⟩ :=
    yields_tuple (List.forall_mem_singleton.mpr hproduct.isInstance.lt_size)
  have hfieldLt := hco₁.fields_lt hproduct.productBody field (List.mem_singleton_self field)
  refine ⟨k, field, (StoreM.tuple [v] store₁).1, (StoreM.tuple [v] store₁).2,
    ((st.finding.exprTypes.insert 0 TypeId.bool).insert 1 v).insert 2 (StoreM.tuple [v] store₁).1,
    hadv.le.trans hsteps.le, ?_, ?_, ?_⟩
  · rw [tree_of_le hsteps.le hfieldLt, hfield]
  · rw [htuple, List.map_singleton, hv]
  · have hrun : boxedBody.infer context st = (do
        let ty ← FindM.build (StoreM.tuple [((Expr.mk 1 Span.none (.construct "Box"
          [.mk 0 Span.none (.bool true)])).infer context st).1])
        FindM.record 2 ty) context ((Expr.mk 1 Span.none (.construct "Box"
          [.mk 0 Span.none (.bool true)])).infer context st).2 := rfl
    rw [hrun, hconstruct]
    rfl

/-- The type variable of the result stands for the tuple, and that of the box for its field. -/
theorem accepts_boxModule {s : CheckState} {box param : TypeId}
    (hs : s.Waits [useFn (some (.var "v")) boxedBody]) (hclean : s.Clean) (hco : s.store.Coherent)
    (hcomp : s.store.Complete) (hbox : s.store.HasBox box param) :
    Accepts {} [useFn (some (.var "v")) boxedBody] s := by
  obtain ⟨use, huse, hsignature, -⟩ := hs.waits _ List.mem_cons_self
  obtain ⟨sig, hsig, -, hret, -⟩ := hsignature.signature
  obtain ⟨k, field, tuple, store', types, hle, hfield, htuple, hinfer⟩ :=
    @infer_boxedBody s.context ⟨s.store, Scopes.enter {}, {}, s.log⟩ _ _ hco hcomp hbox
  have hwalk := walk_noParams huse hsig rfl rfl hinfer
  have hv : store'.tree sig.ret = var (.named "v") := by
    rw [tree_of_le hle hret.sound.1]
    exact (hret.denotes hclean _ rfl).unique .var fun _ => rfl
  have hbool : applyAll [(.fresh k, TypeTree.prim .bool)] (var (.fresh k)) = prim .bool :=
    replace_var_self _ _
  have hboxed : applyAll [(.fresh k, TypeTree.prim .bool)]
      (TypeTree.tuple [.mk (.product "Box" [var (.fresh k)])]) =
        TypeTree.tuple [.mk (.product "Box" [prim .bool])] := by
    rw [applyAll_eq_subst, subst_tuple, List.map_singleton, subst_mk rfl, Shape.map,
      List.map_singleton, subst_var, hbool]
  have hother : applyAll [(.fresh k, TypeTree.prim .bool)] (var (.named "v")) = var (.named "v") :=
    applyAll_eq_self (by simp)
  have hsolves : SolvesInOrder 10000 [] [(var (.fresh k), TypeTree.prim .bool),
      (var (.named "v"), TypeTree.tuple [.mk (.product "Box" [var (.fresh k)])])]
      [(.named "v", TypeTree.tuple [.mk (.product "Box" [prim .bool])]),
        (.fresh k, TypeTree.prim .bool)] := by
    refine .cons (SolvesInOrder.unify_var_ok (by decide) (not_occurs_prim _ _) (by simp [error])) ?_
    refine @SolvesInOrder.cons _ _ [(.named "v", _)] _ _ _ _ ?_ .nil
    rw [List.append_nil, applyAll_nil, hother, hboxed]
    exact SolvesInOrder.unify_var_ok (by decide)
      (by simp [TypeTree.tuple, occurs_mk, Shape.varIdent?, Shape.children])
      (by simp [TypeTree.tuple, error])
  rw [Accepts, hwalk]
  refine ⟨rfl, [(.named "v", TypeTree.tuple [.mk (.product "Box" [prim .bool])]),
    (.fresh k, TypeTree.prim .bool)], ?_, by simp [Constraint.obligation?], by simp⟩
  simpa [Constraint.equation?, hv, hfield, htuple] using hsolves

theorem errorCount_check_boxModule : (boxModule.check {} {}).errorCount = 0 := by
  obtain ⟨hclean, box, param, hbox⟩ := prepared_boxModule
  have hready := Module.ready_prepared boxModule {} {}
  have hwaits := hready.waits _ (by rw [groups_boxModule]; exact List.mem_cons_self)
  exact Module.errorCount_check_of_accepts groups_boxModule hclean
    (accepts_boxModule hwaits hclean hready.registered.coherent hready.registered.complete hbox)

/-- The expression has the type of a box of a truth value, in a tuple. -/
theorem exprType_boxModule : ∃ ty, (boxModule.check {} {}).exprTypes[2]? = some ty ∧
    ty < (boxModule.check {} {}).store.size ∧ (boxModule.check {} {}).store.tree ty =
      TypeTree.tuple [.mk (.product "Box" [prim .bool])] := by
  have hunique : boxModule.UniqueExprs := by decide
  obtain ⟨-, box, param, hbox⟩ := prepared_boxModule
  have hgroups : boxModule.groups = [] ++ [useFn (some (.var "v")) boxedBody] :: [] :=
    groups_boxModule
  obtain ⟨s, s', total, last, retained, hturn⟩ :=
    Module.exists_turn errorCount_check_boxModule hgroups
  cases hturn.before
  have hfinal := hbox.of_advances (hturn.checks.store.1.trans hturn.endsWell.1)
  have hmap := hturn.waits.map_members
  obtain ⟨⟨f, use⟩, hmember, rfl⟩ := List.mem_map.mp (hmap.symm ▸ List.mem_cons_self)
  obtain ⟨_, sig, hbody, -, hbodyHas⟩ := hturn.bodyHasType (hturn.follows hunique) hmember
  cases hbody
  obtain ⟨t, Δ, htyped, -⟩ := hbodyHas.bodyAt
  have hrecorded : ∀ id ∈ bodyExprs [useFn (some (.var "v")) boxedBody], ∃ ty,
      (boxModule.check {} {}).exprTypes[id]? = some ty := fun id hid => by
    obtain ⟨-, ty, -, hty, -⟩ := hturn.publishes.recorded id hid
    exact ⟨ty, by rw [hturn.exprType hunique hid, hty]⟩
  obtain ⟨ty, hty⟩ := hrecorded 2 (by decide)
  obtain ⟨ty₁, hty₁⟩ := hrecorded 1 (by decide)
  have hwhole := boxModule.whole_exprType {} {} errorCount_check_boxModule hty₁
  refine ⟨ty, hty, (boxModule.whole_exprType {} {} errorCount_check_boxModule hty).1, ?_⟩
  -- the rules of the tuple, of the construction and of the literal, from the outside inwards
  obtain ⟨ts, hitems, htuple⟩ := htyped.exists_tuple
  obtain ⟨t₁, rfl, hconstruct⟩ := hitems.exists_singleton
  obtain ⟨p, args, fields, us, hargs, ⟨hp, hlength, rfl⟩, hagree, hresult⟩ :=
    hconstruct.exists_productAt
  obtain ⟨u, rfl, hu⟩ := hargs.exists_singleton
  obtain rfl := hu.exprType_bool
  obtain rfl : _ = p := Option.some.inj ((hfinal.declares.product? hfinal.body).symm.trans hp)
  have hparams : (boxModule.check {} {}).store.idents [param] = [.named "t"] := by
    simp [idents, hfinal.named, Shape.varIdent?]
  obtain ⟨x, rfl⟩ : ∃ x, args = [x] :=
    List.length_eq_one_iff.mp (by rw [hlength, readProduct, hparams]; rfl)
  have hresult' : (boxModule.check {} {}).store.tree ty₁ = .mk (.product "Box" [x]) :=
    (TypedModule.exprType_typing hty₁).symm.trans hresult
  have hx : x ≠ error := by
    have hfaultless := hwhole.2
    rw [hresult', faultless_mk] at hfaultless
    rintro rfl
    exact absurd (hfaultless.2 error (by simp [Shape.children])) (by simp [error, faultless_prim])
  have hfield : Compatible x (prim .bool) := by
    simpa [ProductDecl.fieldsAt, readProduct, hparams, tree_of_var hfinal.named, assign,
      TypedModule.typing] using hagree
  obtain rfl := hfield.eq_prim hx (by decide)
  rw [← TypedModule.exprType_typing hty, htuple, hconstruct.type_eq, hresult]
  rfl

namespace Module

/-- Let the type of an expression of a checked module contain no variable and no error type.  Then
every product or sum that occurs in it, itself or a constituent at any depth, has a body, and it is
declared or one of the instances that were made. -/
theorem check_materialized (m : Module) (config : CheckConfig) (log : DiagnosticLog) {id : ExprId}
    {ty part : TypeId} (hty : (m.check config log).exprTypes[id]? = some ty)
    (hclosed : ¬ ((m.check config log).store.tree ty).Generic)
    (herror : ((m.check config log).store.tree ty).Faultless)
    (hpart : Relation.ReflTransGen (fun a b => b ∈ (m.check config log).store.children a) ty part)
    (hkind : (m.check config log).store.kind part = .product ∨
      (m.check config log).store.kind part = .sum) :
    ((m.check config log).store.nominals.bodies[part]?).isSome = true ∧
      ((∃ name, (m.check config log).store.declared? name = some part) ∨
        part ∈ (m.check config log).variants) := by
  have hready : (m.checked config log).Ready [] :=
    CheckM.ready_checkGroups (m.ready_prepared config log)
  have haccounted := m.lasting_checked lasting_accounted accounted_new config log
  have hends := m.store_check config log hready
  rw [(m.shows_check config log).exprTypes] at hty
  have hlt := hready.exprType hty
  have hlt' := lt_size_of_le hends.1.le hlt
  have hmaterialized : (m.check config log).store.Materialized ty := by
    rw [← isGeneric_iff hlt', Bool.not_eq_true, isGeneric_of_le hends.1.le hlt] at hclosed
    rw [← hasError_eq_false_iff hlt', hasError_of_le hends.1.le hlt] at herror
    rw [check_eq]
    exact CheckM.materialized_materializeExprTypes hready haccounted hty hclosed herror
  obtain ⟨k, hk⟩ : ∃ k : DeclKind, (m.check config log).store.kind part = k.kind := by
    rcases hkind with hkind | hkind
    · exact ⟨.product, hkind⟩
    · exact ⟨.sum, hkind⟩
  exact (hmaterialized part hpart k hk).body
    (m.lasting_check lasting_accounted accounted_new config log)
    (hends.1.complete hready.registered.coherent hready.registered.complete) hk

/-- The box in the tuple, which only the solution of the constraints brings about, is made. -/
theorem check_materialized_boxModule : ∃ ty part,
    (boxModule.check {} {}).exprTypes[2]? = some ty ∧
      (boxModule.check {} {}).store.tree ty = TypeTree.tuple [.mk (.product "Box" [prim .bool])] ∧
      Relation.ReflTransGen (fun a b => b ∈ (boxModule.check {} {}).store.children a) ty part ∧
      (boxModule.check {} {}).store.tree part = .mk (.product "Box" [prim .bool]) ∧
      (boxModule.check {} {}).store.kind part = .product ∧
      ((boxModule.check {} {}).store.nominals.bodies[part]?).isSome = true ∧
      ((∃ name, (boxModule.check {} {}).store.declared? name = some part) ∨
        part ∈ (boxModule.check {} {}).variants) := by
  obtain ⟨ty, hty, hlt, htree⟩ := exprType_boxModule
  have hclosed : ¬ (TypeTree.tuple [.mk (.product "Box" [prim .bool])]).Generic := fun ⟨x, hx⟩ => by
    simp [TypeTree.tuple, occurs_mk, Shape.varIdent?, Shape.children] at hx
  have hfaultless : (TypeTree.tuple [.mk (.product "Box" [prim .bool])]).Faultless := by
    simp [faultless_tuple, faultless_mk, Shape.children, Shape.isError]
  obtain ⟨c, hpart, hc⟩ := exists_part_of_tree (htree.trans rfl) List.mem_cons_self
  have hkind := kind_bare_of_tree hc
  rw [← htree] at hclosed hfaultless
  have hmain := boxModule.check_materialized {} {} hty hclosed hfaultless hpart (.inl hkind)
  exact ⟨ty, _, hty, htree, hpart, (tree_bare _ c).trans hc, hkind, hmain⟩

end Module

end ConstraintTyping
