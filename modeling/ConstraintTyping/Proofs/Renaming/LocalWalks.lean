import ConstraintTyping.Infer.Find
import ConstraintTyping.Proofs.Infer.Rules
import ConstraintTyping.Proofs.Renaming.LocalNames

/-!
# Walks that bind other names

Two walks over the same body, in one of which a binder has another name, go through the same states
but for the names in scope.  What a walk does beside binding names and looking them up does not
depend on the scopes (`FindM.Steady`), so the two differ only where names are.
-/

namespace ConstraintTyping

open Store StoreM LocalNames

variable {α β : Type} {base : Store}

/-! ## What does not depend on the scopes -/

namespace FindM

/-- A computation goes on well from a store, and does the same in all scopes. -/
def Steady (base : Store) (act : FindM α) : Prop := ∀ context s, DeclM.EndsWell base s.store →
  DeclM.EndsWell base (act context s).2.store ∧ ∀ scopes,
    act context { s with scopes } = ((act context s).1, { (act context s).2 with scopes })

theorem steady_pure (a : α) : Steady base (pure a : FindM α) := fun _ _ h => ⟨h, fun _ => rfl⟩

theorem steady_read : Steady base (read : FindM FindContext) := fun _ _ h => ⟨h, fun _ => rfl⟩

theorem Steady.bind {act : FindM α} {f : α → FindM β} (hact : Steady base act)
    (hf : ∀ a, Steady base (f a)) : Steady base (act >>= f) := by
  intro context s hs
  obtain ⟨hs₁, hact⟩ := hact context s hs
  obtain ⟨hs₂, hf⟩ := hf (act context s).1 context _ hs₁
  refine ⟨hs₂, fun scopes => ?_⟩
  show f (act context { s with scopes }).1 context (act context { s with scopes }).2 = _
  rw [hact]
  exact hf scopes

/-- What follows is to be steady after what is asked of a store that has gone on well. -/
theorem steady_query_bind {f : Store → α} {g : α → FindM β}
    (h : ∀ st, DeclM.EndsWell base st → Steady base (g (f st))) : Steady base (query f >>= g) :=
  fun context s hs => h s.store hs context s hs

theorem steady_build {act : StoreM α} (h : ∀ st, DeclM.EndsWell base st →
    DeclM.EndsWell base (act st).2) : Steady base (build act) :=
  fun _ s hs => ⟨h s.store hs, fun _ => rfl⟩

theorem steady_builds {act : StoreM α} (h : act.Builds) : Steady base (build act) :=
  steady_build fun st hst =>
    have ⟨hle, hnom⟩ := h st
    ⟨hst.1.trans (.of_nominals hle hnom), hst.2.of_nominals hle hnom⟩

theorem steady_ite {p : Prop} [Decidable p] {x y : FindM α} (hx : Steady base x)
    (hy : Steady base y) : Steady base (if p then x else y) := by
  split
  · exact hx
  · exact hy

/-- What may be done on the way is followed by the rest. -/
theorem steady_ite_bind {p : Prop} [Decidable p] {x : FindM PUnit} {f : PUnit → FindM α}
    (hx : Steady base x) (hf : Steady base (f ⟨⟩)) :
    Steady base (if p then x >>= f else f ⟨⟩) :=
  steady_ite (hx.bind fun _ => hf) hf

theorem steady_mapM {f : α → FindM β} (hf : ∀ a, Steady base (f a)) (xs : List α) :
    Steady base (xs.mapM f) := by
  induction xs with
  | nil => exact steady_pure []
  | cons x xs ih =>
    rw [List.mapM_cons]
    exact (hf x).bind fun y => ih.bind fun ys => steady_pure (y :: ys)

theorem steady_forM {f : α → FindM PUnit} (hf : ∀ a, Steady base (f a)) (xs : List α) :
    Steady base (xs.forM f) := by
  induction xs with
  | nil => exact steady_pure _
  | cons x xs ih => exact (hf x).bind fun _ => ih

theorem steady_equal (lhs rhs : TypeId) (span : Span) (reason : Reason) :
    Steady base (equal lhs rhs span reason) := fun _ _ h => ⟨h, fun _ => rfl⟩

theorem steady_oblige (obligation : TypeId) (span : Span) : Steady base (oblige obligation span) :=
  fun _ _ h => ⟨h, fun _ => rfl⟩

theorem steady_record (expr : ExprId) (ty : TypeId) : Steady base (record expr ty) :=
  fun _ _ h => ⟨h, fun _ => rfl⟩

theorem steady_fault (f : TypeFault) : Steady base (fault f) := fun _ _ h => ⟨h, fun _ => rfl⟩

theorem steady_incomplete (f : TypeFault) : Steady base (incomplete f) :=
  fun _ _ h => ⟨h, fun _ => rfl⟩

theorem steady_freshVar : Steady base freshVar := steady_builds builds_freshVar

theorem steady_suffixRule (allowed : Prim → Bool) (suffix : Name) (span : Span) :
    Steady base (suffixRule allowed suffix span) := by
  unfold suffixRule
  split
  · exact steady_pure _
  · exact steady_fault _

theorem steady_intRule (suffix : Option Name) (span : Span) : Steady base (intRule suffix span) := by
  cases suffix with
  | none => exact steady_pure _
  | some s => exact steady_suffixRule _ s span

theorem steady_floatRule (suffix : Option Name) (span : Span) :
    Steady base (floatRule suffix span) := by
  cases suffix with
  | none => exact steady_pure _
  | some s => exact steady_suffixRule _ s span

theorem steady_argumentsRule (reason : Nat → Reason) (params args : List TypeId)
    (spans : List Span) : Steady base (argumentsRule reason params args spans) :=
  steady_forM (fun _ => steady_equal _ _ _ _) _

theorem steady_callRule (id : ExprId) (span calleeSpan : Span) (callee : TypeId)
    (args : List TypeId) (argSpans : List Span) :
    Steady base (callRule id span calleeSpan callee args argSpans) := by
  unfold callRule
  refine steady_query_bind fun st _ => steady_query_bind fun st' _ => ?_
  cases st'.signature? (st.bare callee) with
  | none =>
    refine steady_freshVar.bind fun result => ?_
    refine (steady_builds (regular_function _).builds).bind fun shape => ?_
    exact (steady_equal _ _ _ _).bind fun _ => steady_pure _
  | some sig =>
    refine steady_ite_bind (steady_incomplete _) ?_
    refine (steady_argumentsRule _ _ _ _).bind fun _ => ?_
    refine steady_ite_bind (fun _ _ h => ⟨h, fun _ => rfl⟩) ?_
    refine steady_freshVar.bind fun result => ?_
    exact (steady_equal _ _ _ _).bind fun _ => steady_pure _

theorem steady_operatorVar (traitName : Name) (span : Span) :
    Steady base (operatorVar traitName span) := by
  unfold operatorVar
  refine steady_read.bind fun context => ?_
  split
  · exact (steady_fault _).bind fun _ => steady_pure _
  · refine steady_freshVar.bind fun shared => ?_
    refine (steady_builds (regular_traitType _ _ _).builds).bind fun obligation => ?_
    exact (steady_oblige _ _).bind fun _ => steady_pure _

theorem steady_binaryRule (op : BinaryOp) (span : Span) (left right : TypeId)
    (leftSpan rightSpan : Span) :
    Steady base (binaryRule op span left right leftSpan rightSpan) := by
  unfold binaryRule
  split
  · exact (steady_equal _ _ _ _).bind fun _ => (steady_equal _ _ _ _).bind fun _ => steady_pure _
  · refine (steady_operatorVar _ _).bind fun shared? => ?_
    split
    · exact steady_pure _
    · exact (steady_equal _ _ _ _).bind fun _ => (steady_equal _ _ _ _).bind fun _ => steady_pure _

theorem steady_unaryRule (op : UnaryOp) (span : Span) (operand : TypeId) (operandSpan : Span) :
    Steady base (unaryRule op span operand operandSpan) := by
  cases op with
  | neg =>
    refine (steady_operatorVar _ _).bind fun shared? => ?_
    split
    · exact steady_pure _
    · exact (steady_equal _ _ _ _).bind fun _ => steady_pure _
  | not => exact (steady_equal _ _ _ _).bind fun _ => steady_pure _
  | addressOf => exact steady_builds (regular_pointer _).builds
  | deref =>
    refine steady_freshVar.bind fun target => ?_
    refine (steady_builds (regular_pointer _).builds).bind fun pointer => ?_
    exact (steady_equal _ _ _ _).bind fun _ => steady_pure _

theorem steady_coverageRule (patterns : List Pattern) (span : Span) :
    Steady base (coverageRule patterns span) :=
  steady_query_bind fun _ _ =>
    steady_ite ((steady_fault _).bind fun _ => steady_pure _) (steady_pure _)

theorem steady_writtenRule (written : TypeExpr) (span : Span) :
    Steady base (writtenRule written span) := by
  unfold writtenRule
  refine (steady_build fun st hst => ?_).bind fun result => ?_
  · have hends := (resolvesWell st.declarations span written st hst.2 rfl).end fun _ _ h => h.1
    exact ⟨hst.1.trans hends.1, hends.2⟩
  · cases result with
    | ok ty => exact steady_pure _
    | error f => exact steady_fault _

variable (hco : base.Coherent) (hcomp : base.Complete)
include hco hcomp

/-- The instance of a declared product at fresh variables has as many fields as the product. -/
theorem freshProduct_fields {name : Name} {decl : TypeId} {body : ProductBody} {s : FindState}
    (hdecl : base.declaredProduct? name = some decl) (hbody : base.productBody? decl = some body)
    (hs : DeclM.EndsWell base s.store) (context : FindContext) :
    ∃ inst made, (freshProduct decl context s).1 = some (inst, made) ∧
      made.fields.length = body.fields.length := by
  obtain ⟨params, hd⟩ := declares_of_declaredProduct? hco hdecl
  have hgives := DeclM.gives_instantiateAtFresh hs.2 (hs.1.complete hco hcomp) (hs.1.declares hd)
  obtain ⟨inst, st, hrun, hfresh⟩ := hgives.exists_ok fun _ h => h
  obtain ⟨args, declBody, made, -, hat⟩ := hfresh.product
  have hresult : (freshProduct decl context s).1 = some (inst, made) := by
    have hmade : build (DeclM.instantiateAtFresh decl).run context s =
        (.ok inst, { s with store := st }) := by rw [build, hrun]
    rw [freshProduct, bind_apply, hmade]
    show (st.productBody? inst).map _ = _
    rw [hat.productBody]
    rfl
  refine ⟨inst, made, hresult, ?_⟩
  obtain rfl : declBody = body := by
    have hkept := (hs.1.trans hfresh.advances).productBody? hd.declared hbody
    exact Option.some.inj (hat.declBody.symm.trans hkept)
  simpa using congrArg List.length hat.isBodyAt.fields

theorem steady_freshProduct {name : Name} {decl : TypeId} {params : List TypeId}
    (hd : base.Declares name decl .product params) : Steady base (freshProduct decl) := by
  unfold freshProduct
  refine (steady_build fun st hst => ?_).bind fun result => ?_
  · have hgives := DeclM.gives_instantiateAtFresh hst.2 (hst.1.complete hco hcomp)
      (hst.1.declares hd)
    have hends := (hgives.mono (fun _ hf => hf.elim) fun _ _ h => h).end
      (P := DeclM.EndsWell st) fun _ _ h => ⟨h.advances, h.coherent⟩
    exact ⟨hst.1.trans hends.1, hends.2⟩
  · cases result with
    | error e => exact steady_pure _
    | ok inst => exact steady_query_bind fun _ _ => steady_pure _

theorem steady_fieldRule (field : Name) (span : Span) (receiver : TypeId) (receiverSpan : Span) :
    Steady base (fieldRule field span receiver receiverSpan) := by
  unfold fieldRule
  refine steady_query_bind fun st hst => ?_
  cases howners : st.productsWithField field with
  | nil => exact steady_fault _
  | cons owner owners =>
    cases owners with
    | nil =>
      obtain ⟨name, params, -, hd, -⟩ := declares_of_mem_productsWithField hst.2
        (hst.1.complete hco hcomp)
        (show owner ∈ st.productsWithField field by rw [howners]; exact List.mem_cons_self)
      refine (steady_freshProduct hco hcomp (hst.1.declares_of hco hd)).bind fun inst? => ?_
      split
      · exact steady_pure _
      · split
        · exact steady_pure _
        · exact (steady_equal _ _ _ _).bind fun _ => steady_pure _
    | cons owner' owners => exact steady_query_bind fun _ _ => steady_fault _

theorem steady_constructRule (name : Name) (span : Span) (args : List TypeId)
    (argSpans : List Span) : Steady base (constructRule name span args argSpans) := by
  unfold constructRule
  refine steady_query_bind fun st hst => ?_
  cases hdecl : st.declaredProduct? name with
  | none => exact steady_fault _
  | some decl =>
    obtain ⟨params, hd⟩ := declares_of_declaredProduct? hst.2 hdecl
    refine (steady_freshProduct hco hcomp (hst.1.declares_of hco hd)).bind fun inst? => ?_
    split
    · exact steady_pure _
    · refine steady_ite_bind (steady_incomplete _) ?_
      exact (steady_argumentsRule _ _ _ _).bind fun _ => steady_pure _

end FindM

/-! ## How many fields a tag has -/

section Fields

variable {st : Store}

theorem declaredProduct?_of_endsWell (hco : base.Coherent) (h : DeclM.EndsWell base st)
    (name : Name) : st.declaredProduct? name = base.declaredProduct? name := by
  rw [declaredProduct?, declaredProduct?, h.1.declared?]
  cases hdecl : base.declared? name with
  | none => rfl
  | some decl =>
    obtain ⟨-, k, params, hd, -⟩ := hco.declares hdecl
    rw [Option.filter_some, Option.filter_some, kind_of_le h.1.le hd.lt_size]

/-- A store that goes on has the same tags with as many fields. -/
theorem fieldCount?_of_endsWell (hco : base.Coherent) (hcomp : base.Complete)
    (h : DeclM.EndsWell base st) : st.fieldCount? = base.fieldCount? := by
  funext name
  rw [fieldCount?, fieldCount?, declaredProduct?_of_endsWell hco h]
  cases hdecl : base.declaredProduct? name with
  | none => rfl
  | some decl =>
    obtain ⟨params, hd⟩ := declares_of_declaredProduct? hco hdecl
    obtain ⟨body, hbody⟩ := hcomp.product hd
    rw [Option.bind_some, Option.bind_some, hbody, h.1.productBody? hd.declared hbody]

end Fields

/-! ## Two walks -/

/-- Two walks over the same body, in one of which a binder has another name. -/
structure LocalWalk where
  ρ : LocalRenaming
  base : Store
  context : FindContext
  coherent : base.Coherent
  complete : base.Complete
  fields : ρ.fields? = base.fieldCount?

namespace LocalWalk

variable (J : LocalWalk)

/-- The states of the two walks differ in the names in scope. -/
structure InStep (r : LocalNames) (s s' : FindState) : Prop where
  apt : r.Apt J.ρ
  store : DeclM.EndsWell J.base s.store
  same : s' = { s with scopes := s'.scopes }
  scopes : r.Bind s.scopes s'.scopes

/-- Two walks have the same result, and go from states in step to states in step. -/
def Twin (r r' : LocalNames) (x x' : FindM α) : Prop := ∀ s s', J.InStep r s s' →
  (x' J.context s').1 = (x J.context s).1 ∧ J.InStep r' (x J.context s).2 (x' J.context s').2

variable {J} {r r₁ r₂ : LocalNames} {x x' : FindM α} {f g : α → FindM β}

theorem twin_pure (a : α) : J.Twin r r (pure a) (pure a) := fun _ _ hs => ⟨rfl, hs⟩

theorem Twin.bind (h : J.Twin r r₁ x x') (hf : ∀ a, J.Twin r₁ r₂ (f a) (g a)) :
    J.Twin r r₂ (x >>= f) (x' >>= g) := by
  intro s s' hs
  obtain ⟨hresult, hs₁⟩ := h s s' hs
  rw [FindM.bind_apply, FindM.bind_apply, hresult]
  exact hf _ _ _ hs₁

/-- A computation that does not depend on the scopes leaves them as they are. -/
theorem InStep.steady {s s' : FindState} (hs : J.InStep r s s') (h : FindM.Steady J.base x) :
    x J.context s' = ((x J.context s).1, { (x J.context s).2 with scopes := s'.scopes }) ∧
      J.InStep r (x J.context s).2 { (x J.context s).2 with scopes := s'.scopes } := by
  obtain ⟨hstore, hscopes⟩ := h J.context s hs.store
  have hkept : (x J.context s).2.scopes = s.scopes :=
    congrArg (·.2.scopes) (hscopes s.scopes)
  refine ⟨?_, hs.apt, hstore, rfl, ?_⟩
  · rw [hs.same]
    exact hscopes s'.scopes
  · rw [hkept]
    exact hs.scopes

theorem twin_steady (h : FindM.Steady J.base x) : J.Twin r r x x := fun s s' hs => by
  obtain ⟨heq, hs'⟩ := hs.steady h
  rw [heq]
  exact ⟨rfl, hs'⟩

/-- What follows a computation that does not depend on the scopes, whose result is known. -/
theorem twin_steady_bind (h : FindM.Steady J.base x)
    (hf : ∀ s, DeclM.EndsWell J.base s.store →
      J.Twin r r₁ (f (x J.context s).1) (g (x J.context s).1)) :
    J.Twin r r₁ (x >>= f) (x >>= g) := by
  intro s s' hs
  obtain ⟨heq, hs'⟩ := hs.steady h
  rw [FindM.bind_apply, FindM.bind_apply, heq]
  exact hf s hs.store _ _ hs'

theorem twin_query_bind {q : Store → α}
    (h : ∀ st, DeclM.EndsWell J.base st → J.Twin r r₁ (f (q st)) (g (q st))) :
    J.Twin r r₁ (FindM.query q >>= f) (FindM.query q >>= g) :=
  twin_steady_bind (fun _ _ hs => ⟨hs, fun _ => rfl⟩) fun s hs => h s.store hs

/-- Binders that bind nothing are counted. -/
theorem Twin.later (h : J.Twin r r x x') {n : Nat} (hle : r.count ≤ n) :
    J.Twin r { r with count := n } x x' := fun s s' hs =>
  have ⟨hresult, hs'⟩ := h s s' hs
  ⟨hresult, hs'.apt.later hle, hs'.store, hs'.same, hs'.scopes⟩

theorem twin_bindName {name : Name} (ty : TypeId) (hname : name ≠ J.ρ.name) :
    J.Twin r (LocalM.bindName J.ρ name r).2 (FindM.bind name ty)
      (FindM.bind (LocalM.bindName J.ρ name r).1 ty) := fun _ s' hs =>
  ⟨rfl, hs.apt.bindName hname, hs.store,
    congrArg (fun t : FindState =>
      { t with scopes := s'.scopes.bind (LocalM.bindName J.ρ name r).1 ty }) hs.same,
    hs.scopes.bindName name ty⟩

theorem twin_enterScope : J.Twin r r.enter FindM.enterScope FindM.enterScope := fun _ s' hs =>
  ⟨rfl, hs.apt.enter, hs.store,
    congrArg (fun t : FindState => { t with scopes := s'.scopes.enter }) hs.same, hs.scopes.enter⟩

/-- When a scope ends, the names are in scope that were before it. -/
theorem twin_exitScope (h : r.enter.Leads r₁) :
    J.Twin r₁ { r with count := r₁.count } FindM.exitScope FindM.exitScope := fun _ s' hs =>
  ⟨rfl, hs.apt.exit h.outer, hs.store,
    congrArg (fun t : FindState => { t with scopes := s'.scopes.exit }) hs.same,
    hs.scopes.exit h.outer⟩

/-- A reference is to the same thing under its new name. -/
theorem twin_identRule {name : Name} (span : Span) (hname : name ≠ J.ρ.name) :
    J.Twin r r (FindM.identRule name span) (FindM.identRule (r.nameOf name) span) := by
  intro s s' hs
  have hlookup := hs.scopes.lookup? hs.apt hname
  cases hlocal : s.scopes.lookup? name with
  | some ty =>
    rw [hlocal] at hlookup
    rw [FindM.identRule_local hlocal, FindM.identRule_local hlookup]
    exact ⟨rfl, hs⟩
  | none =>
    -- what is not local is found by its name, in all scopes that do not bind it
    rw [hlocal, hs.scopes.nameOf_eq hlocal] at hlookup
    rw [hs.scopes.nameOf_eq hlocal, FindM.identRule_apply, FindM.identRule_apply, hlocal, hlookup]
    refine twin_steady ?_ s s' hs
    dsimp only
    split
    · exact FindM.steady_ite (FindM.steady_builds (builds_instantiateFresh _)) (FindM.steady_pure _)
    · split
      · exact FindM.steady_builds (builds_instantiateFresh _)
      · exact FindM.steady_fault _

/-- Parameters are bound to types of theirs. -/
theorem twin_bindAll {params : List Param} {tys : List TypeId} (r : LocalNames)
    (hlen : tys.length = params.length) (hnew : ∀ p ∈ params, p.name ≠ J.ρ.name) :
    J.Twin r (LocalM.bindParams J.ρ params r).2
      ((params.zip tys).forM fun (param, ty) => FindM.bind param.name ty)
      (((LocalM.bindParams J.ρ params r).1.zip tys).forM fun (param, ty) =>
        FindM.bind param.name ty) := by
  induction params generalizing tys r with
  | nil => exact twin_pure _
  | cons p rest ih =>
    cases tys with
    | nil => cases hlen
    | cons ty tys =>
      obtain ⟨hp, hrest⟩ := List.forall_mem_cons.mp hnew
      exact (twin_bindName ty hp).bind fun _ => ih _ (Nat.succ.inj hlen) hrest

theorem twin_paramsRule {params : List Param} (r : LocalNames)
    (hnew : ∀ p ∈ params, p.name ≠ J.ρ.name) :
    J.Twin r (LocalM.bindParams J.ρ params r).2 (FindM.paramsRule params)
      (FindM.paramsRule (LocalM.bindParams J.ρ params r).1) := by
  induction params generalizing r with
  | nil => exact twin_pure _
  | cons p rest ih =>
    obtain ⟨name, written, span⟩ := p
    obtain ⟨hp, hrest⟩ := List.forall_mem_cons.mp hnew
    have hbind : ∀ ty, J.Twin r (LocalM.bindParams J.ρ (⟨name, written, span⟩ :: rest) r).2 (do
        FindM.bind name ty
        let tys ← FindM.paramsRule rest
        return ty :: tys) (do
        FindM.bind (LocalM.bindName J.ρ name r).1 ty
        let tys ← FindM.paramsRule (LocalM.bindParams J.ρ rest (LocalM.bindName J.ρ name r).2).1
        return ty :: tys) := fun ty =>
      (twin_bindName ty hp).bind fun _ => (ih _ hrest).bind fun tys => twin_pure (ty :: tys)
    cases written with
    | none => exact (twin_steady FindM.steady_freshVar).bind hbind
    | some written => exact (twin_steady (FindM.steady_writtenRule written span)).bind hbind

/-- Patterns that are not looked at bind nothing. -/
theorem renamePatternLocals_zero (ps : List Pattern) (r : LocalNames) :
    (renamePatternLocals J.ρ 0 ps r).2 =
      { r with count := (renamePatternLocals J.ρ 0 ps r).2.count } := by
  induction ps generalizing r with
  | nil => rfl
  | cons p rest ih => exact (ih _).trans rfl

theorem twin_unbound {ps : List Pattern} (h : J.Twin r r x x') :
    J.Twin r (renamePatternLocals J.ρ 0 ps r).2 x x' := by
  rw [renamePatternLocals_zero]
  exact h.later (leads_renamePatternLocals 0 ps r).count

theorem coverageRule_congr {ps qs : List Pattern} (h : List.Forall₂ Pattern.SameCover ps qs)
    (span : Span) : FindM.coverageRule qs span = FindM.coverageRule ps span := by
  have hsame : (fun st : Store => st.missingPatterns qs) = fun st => st.missingPatterns ps :=
    funext fun st => st.missingPatterns_congr h
  unfold FindM.coverageRule
  rw [hsame]

theorem length_freshVars (ps : List Pattern) (context : FindContext) (s : FindState) :
    ((ps.mapM fun _ => FindM.freshVar) context s).1.length = ps.length := by
  induction ps generalizing s with
  | nil => rfl
  | cons p ps ih =>
    rw [List.mapM_cons]
    exact congrArg (· + 1) (ih _)

end LocalWalk

open LocalWalk FindM

/-! ## The bodies -/

section Bodies

variable {J : LocalWalk}

mutual

/-- Two walks over an expression go in step. -/
theorem Expr.twin_infer : (e : Expr) → (r : LocalNames) → NewAt J.ρ.name e.walk →
    J.Twin r (e.renameLocal J.ρ r).2 e.infer (e.renameLocal J.ρ r).1.infer
  | .mk id span form, r, h =>
    (form.twin_infer id span r h).bind fun ty => twin_steady (steady_record id ty)

theorem ExprForm.twin_infer : (form : ExprForm) → (id : ExprId) → (span : Span) →
    (r : LocalNames) → NewAt J.ρ.name (Expr.mk id span form).walk →
    J.Twin r (form.renameLocal J.ρ r).2 (form.infer id span)
      ((form.renameLocal J.ρ r).1.infer id span)
  | .int _ suffix, _, span, r, _ => twin_steady (steady_intRule suffix span)
  | .float _ suffix, _, span, r, _ => twin_steady (steady_floatRule suffix span)
  | .bool _, _, _, r, _ | .char _, _, _, r, _ | .unit, _, _, r, _ => twin_pure _
  | .string _, _, _, r, _ => twin_steady (steady_builds (regular_pointer _).builds)
  | .ident name, id, span, r, h => by
    have hname := h _ List.mem_cons_self
    exact twin_identRule span (List.ne_of_not_mem_cons hname).symm
  | .call callee args, id, span, r, h => by
    obtain ⟨hcallee, hargs⟩ := List.forall_mem_append.mp (List.forall_mem_cons.mp h).2
    refine (callee.twin_infer r hcallee).bind fun calleeTy =>
      (twin_inferAll args _ hargs).bind fun argTys => ?_
    rw [Expr.span_renameLocal, spans_renameLocals]
    exact twin_steady (steady_callRule _ _ _ _ _ _)
  | .binary op left right, id, span, r, h => by
    obtain ⟨hleft, hright⟩ := List.forall_mem_append.mp (List.forall_mem_cons.mp h).2
    refine (left.twin_infer r hleft).bind fun leftTy =>
      (right.twin_infer _ hright).bind fun rightTy => ?_
    rw [Expr.span_renameLocal, Expr.span_renameLocal]
    exact twin_steady (steady_binaryRule _ _ _ _ _ _)
  | .unary op operand, id, span, r, h => by
    refine (operand.twin_infer r (List.forall_mem_cons.mp h).2).bind fun operandTy => ?_
    rw [Expr.span_renameLocal]
    exact twin_steady (steady_unaryRule _ _ _ _)
  | .field receiver name, id, span, r, h => by
    refine (receiver.twin_infer r (List.forall_mem_cons.mp h).2).bind fun receiverTy => ?_
    rw [Expr.span_renameLocal]
    exact twin_steady (steady_fieldRule J.coherent J.complete _ _ _ _)
  | .construct name args, id, span, r, h => by
    refine (twin_inferAll args r (List.forall_mem_cons.mp h).2).bind fun argTys => ?_
    rw [spans_renameLocals]
    exact twin_steady (steady_constructRule J.coherent J.complete _ _ _ _)
  | .tuple items, id, span, r, h =>
    (twin_inferAll items r (List.forall_mem_cons.mp h).2).bind fun tys =>
      twin_steady (steady_builds (builds_tuple tys))
  | .array items, id, span, r, h => by
    refine (twin_steady steady_freshVar).bind fun elem =>
      (twin_inferElements elem items r (List.forall_mem_cons.mp h).2).bind fun _ => ?_
    rw [length_renameLocals]
    exact twin_steady (steady_builds (regular_array _ _).builds)
  | .block items, id, span, r, h =>
    twin_enterScope.bind fun _ =>
      (twin_inferAll items r.enter (List.forall_mem_cons.mp h).2).bind fun tys =>
        (twin_exitScope (leads_renameLocals items r.enter)).bind fun _ => twin_pure _
  | .ifThen condition thenBranch, id, span, r, h => by
    obtain ⟨hcondition, hthen⟩ := List.forall_mem_append.mp (List.forall_mem_cons.mp h).2
    refine (condition.twin_infer r hcondition).bind fun conditionTy =>
      Twin.bind ?_ fun _ => (thenBranch.twin_infer _ hthen).bind fun thenTy =>
        Twin.bind ?_ fun _ => twin_pure _ <;>
    · rw [Expr.span_renameLocal]
      exact twin_steady (steady_equal _ _ _ _)
  | .ifElse condition thenBranch elseBranch, id, span, r, h => by
    obtain ⟨hleft, helse⟩ := List.forall_mem_append.mp (List.forall_mem_cons.mp h).2
    obtain ⟨hcondition, hthen⟩ := List.forall_mem_append.mp hleft
    refine (condition.twin_infer r hcondition).bind fun conditionTy =>
      Twin.bind ?_ fun _ => (thenBranch.twin_infer _ hthen).bind fun thenTy =>
        (elseBranch.twin_infer _ helse).bind fun elseTy =>
          Twin.bind ?_ fun _ => twin_pure _ <;>
    · rw [Expr.span_renameLocal]
      exact twin_steady (steady_equal _ _ _ _)
  | .select scrutinee arms, id, span, r, h => by
    obtain ⟨hscrutinee, harms⟩ := List.forall_mem_append.mp (List.forall_mem_cons.mp h).2
    refine (scrutinee.twin_infer r hscrutinee).bind fun scrutineeTy =>
      (twin_steady steady_freshVar).bind fun result =>
        (twin_inferArms scrutineeTy result arms _ harms).bind fun _ =>
          Twin.bind ?_ fun _ => twin_pure _
    rw [coverageRule_congr (sameCover_renameArmLocals arms _)]
    exact twin_steady (steady_coverageRule _ _)
  | .loop condition body, id, span, r, h => by
    obtain ⟨hcondition, hbody⟩ := List.forall_mem_append.mp (List.forall_mem_cons.mp h).2
    refine (condition.twin_infer r hcondition).bind fun conditionTy =>
      Twin.bind ?_ fun _ => (body.twin_infer _ hbody).bind fun _ => twin_pure _
    rw [Expr.span_renameLocal]
    exact twin_steady (steady_equal _ _ _ _)
  | .define name written init, id, span, r, h => by
    obtain ⟨hname, hinit⟩ := List.forall_mem_cons.mp h
    have hnew : name ≠ J.ρ.name := (List.ne_of_not_mem_cons hname).symm
    refine (init.twin_infer r hinit).bind fun initTy => ?_
    cases written with
    | none => exact (twin_bindName initTy hnew).bind fun _ => twin_pure _
    | some written =>
      refine (twin_steady (steady_writtenRule written span)).bind fun ty =>
        Twin.bind ?_ fun _ => (twin_bindName ty hnew).bind fun _ => twin_pure _
      rw [Expr.span_renameLocal]
      exact twin_steady (steady_equal _ _ _ _)
  | .assign target value, id, span, r, h => by
    obtain ⟨htarget, hvalue⟩ := List.forall_mem_append.mp (List.forall_mem_cons.mp h).2
    exact (target.twin_infer r htarget).bind fun targetTy =>
      (value.twin_infer _ hvalue).bind fun valueTy =>
        (twin_steady (steady_equal _ _ _ _)).bind fun _ => twin_pure _
  | .ascribe expr written, id, span, r, h =>
    (expr.twin_infer r (List.forall_mem_cons.mp h).2).bind fun exprTy =>
      (twin_steady (steady_writtenRule written span)).bind fun ty =>
        (twin_steady (steady_equal _ _ _ _)).bind fun _ => twin_pure _
  | .lambda params body, id, span, r, h => by
    obtain ⟨hparams, hbody⟩ := List.forall_mem_append.mp (List.forall_mem_cons.mp h).2
    have hleads : r.enter.Leads
        (body.renameLocal J.ρ (LocalM.bindParams J.ρ params r.enter).2).2 :=
      (leads_bindParams params r.enter).trans (body.leads_renameLocal _)
    exact twin_enterScope.bind fun _ => (twin_paramsRule r.enter (NewAt.params hparams)).bind fun paramTys =>
      (body.twin_infer _ hbody).bind fun bodyTy => (twin_exitScope hleads).bind fun _ =>
        twin_steady (steady_builds (regular_function _).builds)

theorem twin_inferAll : (es : List Expr) → (r : LocalNames) → NewAt J.ρ.name (walkExprs es) →
    J.Twin r (renameLocals J.ρ es r).2 (inferAll es) (inferAll (renameLocals J.ρ es r).1)
  | [], _, _ => twin_pure []
  | e :: rest, r, h => by
    obtain ⟨he, hrest⟩ := List.forall_mem_append.mp h
    exact (e.twin_infer r he).bind fun ty => (twin_inferAll rest _ hrest).bind fun tys =>
      twin_pure (ty :: tys)

theorem twin_inferElements : (elem : TypeId) → (es : List Expr) → (r : LocalNames) →
    NewAt J.ρ.name (walkExprs es) →
    J.Twin r (renameLocals J.ρ es r).2 (inferElements elem es)
      (inferElements elem (renameLocals J.ρ es r).1)
  | _, [], _, _ => twin_pure _
  | elem, e :: rest, r, h => by
    obtain ⟨he, hrest⟩ := List.forall_mem_append.mp h
    refine (e.twin_infer r he).bind fun ty =>
      Twin.bind ?_ fun _ => twin_inferElements elem rest _ hrest
    rw [Expr.span_renameLocal]
    exact twin_steady (steady_equal _ _ _ _)

theorem twin_inferArms : (scrutinee result : TypeId) → (arms : List Arm) → (r : LocalNames) →
    NewAt J.ρ.name (walkArms arms) →
    J.Twin r (renameArmLocals J.ρ arms r).2 (inferArms scrutinee result arms)
      (inferArms scrutinee result (renameArmLocals J.ρ arms r).1)
  | _, _, [], _, _ => twin_pure _
  | scrutinee, result, .mk pattern body span :: rest, r, h => by
    obtain ⟨hparts, hrest⟩ := List.forall_mem_append.mp (List.forall_mem_cons.mp h).2
    obtain ⟨hpattern, hbody⟩ := List.forall_mem_append.mp hparts
    have hleads : r.enter.Leads (body.renameLocal J.ρ (pattern.renameLocal J.ρ r.enter).2).2 :=
      (pattern.leads_renameLocal r.enter).trans (body.leads_renameLocal _)
    refine twin_enterScope.bind fun _ => (pattern.twin_check scrutinee span r.enter hpattern).bind
      fun _ => (body.twin_infer _ hbody).bind fun bodyTy => Twin.bind ?_ fun _ =>
        (twin_exitScope hleads).bind fun _ => twin_inferArms scrutinee result rest _ hrest
    rw [Expr.span_renameLocal]
    exact twin_steady (steady_equal _ _ _ _)

theorem Pattern.twin_check : (p : Pattern) → (expected : TypeId) → (span : Span) →
    (r : LocalNames) → NewAt J.ρ.name p.walk →
    J.Twin r (p.renameLocal J.ρ r).2 (p.check expected span)
      ((p.renameLocal J.ρ r).1.check expected span)
  | .wildcard _, _, _, _, _ => twin_pure _
  | .binding _ name, expected, _, r, h => by
    have hname := h _ List.mem_cons_self
    exact twin_bindName expected (List.ne_of_not_mem_cons hname).symm
  | .literal _ expr, expected, span, r, h => by
    refine (expr.twin_infer r (List.forall_mem_cons.mp h).2).bind fun ty => ?_
    rw [Expr.span_renameLocal]
    exact twin_steady (steady_equal _ _ _ _)
  | .tuple _ items, expected, span, r, h => by
    show J.Twin r (renamePatternLocals J.ρ items.length items r).2 (do
      let parts ← items.mapM fun _ => FindM.freshVar
      let tuple ← build (StoreM.tuple parts)
      equal expected tuple span .pattern
      checkAll parts span items) (do
      let parts ← (renamePatternLocals J.ρ items.length items r).1.mapM fun _ => FindM.freshVar
      let tuple ← build (StoreM.tuple parts)
      equal expected tuple span .pattern
      checkAll parts span (renamePatternLocals J.ρ items.length items r).1)
    have hvars : (renamePatternLocals J.ρ items.length items r).1.mapM (fun _ => FindM.freshVar) =
        items.mapM fun _ => FindM.freshVar :=
      mapM_eq_of_forall₂ (List.forall₂_of_length_eq_of_get
        (length_renamePatternLocals _ items r).symm fun _ _ _ => rfl)
    rw [hvars]
    refine twin_steady_bind (steady_mapM (fun _ => steady_freshVar) items) fun s _ => ?_
    have hlen := length_freshVars items J.context s
    generalize ((items.mapM fun _ => FindM.freshVar) J.context s).1 = parts at hlen ⊢
    rw [← hlen]
    exact (twin_steady (steady_builds (builds_tuple parts))).bind fun tuple =>
      (twin_steady (steady_equal _ _ _ _)).bind fun _ =>
        twin_checkAll parts span items r (List.forall_mem_cons.mp h).2
  | .tag _ name items, expected, span, r, h => by
    refine twin_query_bind fun st hst => ?_
    show J.Twin r (renamePatternLocals J.ρ ((J.ρ.fields? name).getD 0) items r).2 _ _
    rw [declaredProduct?_of_endsWell J.coherent hst, J.fields, fieldCount?]
    cases hdecl : J.base.declaredProduct? name with
    | none => exact twin_unbound (twin_steady ((steady_fault _).bind fun _ => steady_pure _))
    | some decl =>
      obtain ⟨params, hd⟩ := declares_of_declaredProduct? J.coherent hdecl
      obtain ⟨body, hbody⟩ := J.complete.product hd
      rw [Option.bind_some, hbody]
      refine twin_steady_bind (steady_freshProduct J.coherent J.complete hd) fun s hs => ?_
      obtain ⟨inst, made, hmade, hfields⟩ :=
        freshProduct_fields J.coherent J.complete hdecl hbody hs J.context
      rw [hmade]
      refine (twin_steady (steady_equal _ _ _ _)).bind fun _ => ?_
      rw [length_renamePatternLocals]
      have hparts : J.Twin r (renamePatternLocals J.ρ body.fields.length items r).2
          (checkAll made.fields span items)
          (checkAll made.fields span (renamePatternLocals J.ρ body.fields.length items r).1) := by
        rw [← hfields]
        exact twin_checkAll made.fields span items r (List.forall_mem_cons.mp h).2
      split
      · exact (twin_steady (steady_incomplete _)).bind fun _ => hparts
      · exact hparts

theorem twin_checkAll : (expected : List TypeId) → (span : Span) → (ps : List Pattern) →
    (r : LocalNames) → NewAt J.ρ.name (walkPatterns ps) →
    J.Twin r (renamePatternLocals J.ρ expected.length ps r).2 (checkAll expected span ps)
      (checkAll expected span (renamePatternLocals J.ρ expected.length ps r).1)
  | [], _, [], _, _ | _ :: _, _, [], _, _ => twin_pure _
  | [], _, p :: rest, r, _ => twin_unbound (twin_pure _)
  | ty :: tys, span, p :: rest, r, h => by
    obtain ⟨hp, hrest⟩ := List.forall_mem_append.mp h
    exact (p.twin_check ty span r hp).bind fun _ => twin_checkAll tys span rest _ hrest

end

end Bodies

end ConstraintTyping
