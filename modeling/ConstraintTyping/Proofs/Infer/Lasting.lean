import ConstraintTyping.Infer.Find
import ConstraintTyping.Proofs.Infer.Applied
import ConstraintTyping.Proofs.Traits.Table
import ConstraintTyping.Proofs.Types.Lasting

/-!
# What lasts through inference

Solving, traits, written types, walks over bodies and the application of a solution change a store
only by what every lasting property outlasts.
-/

namespace ConstraintTyping

open Store

namespace StoreM

variable {P : Store → Prop} (hP : Lasting P)
include hP

/-! ## Solving -/

theorem preserves_apply (b : Bindings) (ty : TypeId) : Preserves P (b.apply ty) := by
  unfold Bindings.apply
  refine preserves_get.bind fun st => preserves_ite ?_ (preserves_pure ty)
  exact preserves_foldlM (fun _ _ => preserves_replaceVar hP _ _ _) _ _

theorem preserves_unify (limit : Nat) (a b : TypeId) : Preserves P (unify limit a b) :=
  @unifyOne_goes (fun st st' => P st → P st') (fun _ h => h) (fun h h' hP => h' (h hP))
    (preserves_apply hP) limit limit a b

theorem preserves_solveOne (limit : Nat) (sol : Solution) (c : Constraint) :
    Preserves P (solveOne limit sol c) := by
  cases c with
  | implemented obligation span => exact preserves_pure _
  | equal lhs rhs span reason =>
    unfold solveOne
    refine (preserves_apply hP _ _).bind fun l => (preserves_apply hP _ _).bind fun r => ?_
    refine (preserves_unify hP _ _ _).bind fun res => ?_
    split
    · exact preserves_pure _
    · exact (preserves_apply hP _ _).bind fun _ => (preserves_apply hP _ _).bind fun _ =>
        preserves_pure _

theorem preserves_solve (limit : Nat) (cs : List Constraint) : Preserves P (solve limit cs) :=
  preserves_foldlM (preserves_solveOne hP limit) cs {}

/-! ## Traits -/

theorem preserves_coveredBy (limit : Nat) (obligation : TypeId) (impls : List ImplEntry) :
    Preserves P (TraitTable.coveredBy limit obligation impls) := by
  induction impls with
  | nil => exact preserves_pure _
  | cons entry rest ih =>
    unfold TraitTable.coveredBy
    refine preserves_ite (preserves_pure _) (preserves_get.bind fun st => preserves_ite ?_ ih)
    refine (preserves_instantiateFresh hP _).bind fun candidate => ?_
    refine (preserves_unify hP _ _ _).bind fun res => ?_
    split
    · exact preserves_pure _
    · exact ih

theorem preserves_isImplemented (t : TraitTable) (obligation : TypeId) :
    Preserves P (t.isImplemented obligation) := by
  unfold TraitTable.isImplemented
  refine preserves_get.bind fun st => ?_
  split
  · exact preserves_coveredBy hP _ _ _
  · exact preserves_pure _

theorem preserves_obligation (t : TraitTable) (name : Name) (subject : TypeId)
    (args : List TypeId) : Preserves P (t.obligation name subject args) := by
  unfold TraitTable.obligation
  split
  · exact preserves_pure _
  · refine preserves_ite ?_ (preserves_pure _)
    exact (preserves_traitType hP _ _ _).bind fun _ => preserves_pure _

theorem preserves_declareTrait (name : Name) (params : List Name) :
    Preserves P (declareTrait name params) := by
  unfold declareTrait
  refine (preserves_mapM fun p _ => preserves_namedVar hP p).bind fun vars st h => ?_
  have hkept := preserves_traitType hP name (vars.headD TypeId.unit) vars.tail st h
  refine hP.declareOther hkept (intern_lt_size _ _) fun k hk => ?_
  rcases kind_intern (.trait name (vars.headD TypeId.unit) vars.tail) st with hkind | hkind <;>
    cases k <;> cases hkind.symm.trans hk

theorem preserves_register (t : TraitTable) (name : Name) (params : List Name)
    (methods : List MethodSig) : Preserves P (t.register name params methods) := by
  unfold TraitTable.register
  refine preserves_ite (preserves_pure _) (preserves_ite (preserves_pure _) ?_)
  refine (preserves_declareTrait hP name params).bind fun decl => ?_
  refine Preserves.bind ?_ fun typed => preserves_pure _
  exact preserves_mapM fun m _ =>
    (preserves_function hP _).bind fun ty => preserves_pure (m.name, ty)

theorem preserves_addOperator (t : TraitTable) (name : Name) (prims : List Prim) :
    Preserves P (t.addOperator name prims) := by
  unfold TraitTable.addOperator
  refine (preserves_register hP t name _ _).bind fun result => ?_
  have hprims : ∀ t : TraitTable, Preserves P (prims.foldlM (fun (t : TraitTable) p => do
      let ty ← traitType name (TypeId.ofPrim p) []
      return t.addImpl ty name Span.none) t) :=
    preserves_foldlM
      (fun t p => (preserves_traitType hP _ _ _).bind fun ty => preserves_pure _) prims
  cases result with
  | ok r => exact hprims r.2
  | error e => exact hprims t

theorem preserves_operators : Preserves P TraitTable.operators := by
  rw [TraitTable.operators_eq]
  have hloop : ∀ ops : List (Name × List Prim),
      Preserves P (ops.foldlM (fun t op => TraitTable.addOperator t op.1 op.2) {}) :=
    fun ops => preserves_foldlM (fun t op => preserves_addOperator hP t op.1 op.2) ops _
  refine (hloop TraitTable.operatorTraits).bind fun t => ?_
  refine (preserves_namedVar hP _).bind fun pointee => ?_
  refine (preserves_pointer hP _).bind fun anyPointer => ?_
  exact (preserves_traitType hP _ _ _).bind fun ty => preserves_pure _

end StoreM

/-! ## Written types -/

section Written

open StoreM

variable {P : Store → Prop}

/-- Resolving a list of written types, when each of them keeps the property. -/
theorem preserves_resolveAll {span : Span} {ws : List TypeExpr}
    (h : ∀ w ∈ ws, Preserves P (w.resolve span).run) : Preserves P (resolveAll span ws).run := by
  induction ws with
  | nil => exact preserves_run_pure _
  | cons w ws ih =>
    obtain ⟨hw, hws⟩ := List.forall_mem_cons.mp h
    exact preserves_run_bind hw fun ty => preserves_run_bind (ih hws) fun tys =>
      preserves_run_pure _

variable (hP : Lasting P)
include hP

theorem preserves_instantiateWritten (span : Span) (name : Name) (decl : TypeId)
    (args : List TypeId) : Preserves P (instantiateWritten span name decl args).run := by
  unfold instantiateWritten
  refine preserves_run_get_bind fun st h => ?_
  dsimp only
  split
  · exact h
  refine @preserves_run_bind _ _ _ _ _ (liftM (DeclM.instantiate decl args).run) _
    (preserves_run_lift (DeclM.preserves_instantiate (hP.admits args) decl)) (fun result => ?_) st h
  split
  · exact preserves_run_pure _
  · exact preserves_run_throw _

theorem preserves_resolve (span : Span) (w : TypeExpr) : Preserves P (w.resolve span).run := by
  induction w using TypeExpr.induction with
  | named name args ih =>
    rw [TypeExpr.resolve]
    split
    · exact preserves_run_pure _
    · refine preserves_run_get_bind fun st h => ?_
      cases st.declared? name with
      | none => exact h
      | some decl =>
        exact preserves_run_bind (preserves_resolveAll ih)
          (fun resolved => preserves_instantiateWritten hP span name decl resolved) st h
  | var name => exact preserves_run_lift (preserves_namedVar hP name)
  | pointer target ih =>
    exact preserves_run_bind ih fun _ => preserves_run_lift (preserves_pointer hP _)
  | array elem length ih =>
    exact preserves_run_bind ih fun _ => preserves_run_lift (preserves_array hP _ _)
  | tuple items ih =>
    exact preserves_run_bind (preserves_resolveAll ih) fun _ =>
      preserves_run_lift (preserves_tuple hP _)
  | function params ret ihs ih =>
    exact preserves_run_bind (preserves_resolveAll ihs) fun _ => preserves_run_bind ih fun _ =>
      preserves_run_lift (preserves_function hP _)
  | qualified q base ih =>
    exact preserves_run_bind ih fun _ => preserves_run_lift (preserves_qualify hP _ _)

end Written

/-! ## Walks -/

section Reader

variable {ρ σ α β : Type} {P : σ → Prop}

/-- A computation keeps a property of the states that it goes through, in every context. -/
def PreservesIn (P : σ → Prop) (act : ReaderT ρ (StateM σ) α) : Prop := ∀ r, Preserves P (act r)

theorem preservesIn_pure (a : α) : PreservesIn P (pure a : ReaderT ρ (StateM σ) α) :=
  fun _ => preserves_pure a

theorem preservesIn_get : PreservesIn P (get : ReaderT ρ (StateM σ) σ) := fun _ => preserves_get

theorem preservesIn_read : PreservesIn P (read : ReaderT ρ (StateM σ) ρ) :=
  fun r => preserves_pure r

theorem preservesIn_modify {f : σ → σ} (h : ∀ s, P s → P (f s)) :
    PreservesIn P (modify f : ReaderT ρ (StateM σ) PUnit) := fun _ => preserves_modify h

theorem PreservesIn.bind {act : ReaderT ρ (StateM σ) α} {f : α → ReaderT ρ (StateM σ) β}
    (hact : PreservesIn P act) (hf : ∀ a, PreservesIn P (f a)) : PreservesIn P (act >>= f) :=
  fun r => (hact r).bind fun a => hf a r

theorem preservesIn_ite {p : Prop} [Decidable p] {x y : ReaderT ρ (StateM σ) α}
    (hx : PreservesIn P x) (hy : PreservesIn P y) : PreservesIn P (if p then x else y) := by
  split
  · exact hx
  · exact hy

/-- What may be done on the way is followed by the rest. -/
theorem preservesIn_ite_bind {p : Prop} [Decidable p] {x : ReaderT ρ (StateM σ) PUnit}
    {k : PUnit → ReaderT ρ (StateM σ) α} (hx : PreservesIn P x) (hk : PreservesIn P (k ⟨⟩)) :
    PreservesIn P (if p then x >>= k else k ⟨⟩) :=
  preservesIn_ite (hx.bind fun _ => hk) hk

theorem preservesIn_mapM {f : α → ReaderT ρ (StateM σ) β} (hf : ∀ a, PreservesIn P (f a))
    (xs : List α) : PreservesIn P (xs.mapM f) := by
  induction xs with
  | nil => exact preservesIn_pure []
  | cons x xs ih =>
    rw [List.mapM_cons]
    exact (hf x).bind fun y => ih.bind fun ys => preservesIn_pure (y :: ys)

theorem preservesIn_forM {f : α → ReaderT ρ (StateM σ) PUnit} (hf : ∀ a, PreservesIn P (f a))
    (xs : List α) : PreservesIn P (xs.forM f) := by
  induction xs with
  | nil => exact preservesIn_pure _
  | cons x xs ih => exact (hf x).bind fun _ => ih

end Reader

namespace FindM

variable {α : Type} {P : Store → Prop}

/-- A walk keeps a property of the stores that it goes through. -/
abbrev Keeps (P : Store → Prop) (act : FindM α) : Prop :=
  PreservesIn (fun s : FindState => P s.store) act

theorem keeps_build {act : StoreM α} (h : Preserves P act) : Keeps P (build act) :=
  fun _ s hs => h s.store hs

theorem keeps_query (f : Store → α) : Keeps P (query f) := fun _ _ h => h

theorem keeps_equal (lhs rhs : TypeId) (span : Span) (reason : Reason) :
    Keeps P (equal lhs rhs span reason) := fun _ _ h => h

theorem keeps_oblige (obligation : TypeId) (span : Span) : Keeps P (oblige obligation span) :=
  fun _ _ h => h

theorem keeps_record (expr : ExprId) (ty : TypeId) : Keeps P (record expr ty) := fun _ _ h => h

theorem keeps_fault (f : TypeFault) : Keeps P (fault f) := fun _ _ h => h

theorem keeps_incomplete (f : TypeFault) : Keeps P (incomplete f) := fun _ _ h => h

theorem keeps_bind (name : Name) (ty : TypeId) : Keeps P (bind name ty) := fun _ _ h => h

theorem keeps_enterScope : Keeps P enterScope := fun _ _ h => h

theorem keeps_exitScope : Keeps P exitScope := fun _ _ h => h

theorem keeps_suffixRule (allowed : Prim → Bool) (suffix : Name) (span : Span) :
    Keeps P (suffixRule allowed suffix span) := by
  unfold suffixRule
  split
  · exact preservesIn_pure _
  · exact keeps_fault _

theorem keeps_argumentsRule (reason : Nat → Reason) (params args : List TypeId)
    (spans : List Span) : Keeps P (argumentsRule reason params args spans) :=
  preservesIn_forM (fun _ => keeps_equal _ _ _ _) _

theorem keeps_coverageRule (patterns : List Pattern) (span : Span) :
    Keeps P (coverageRule patterns span) :=
  (keeps_query _).bind fun _ =>
    preservesIn_ite ((keeps_fault _).bind fun _ => preservesIn_pure _) (preservesIn_pure _)

variable (hP : Lasting P)
include hP

theorem keeps_freshVar : Keeps P freshVar := keeps_build (StoreM.preserves_freshVar hP)

theorem keeps_identRule (name : Name) (span : Span) : Keeps P (identRule name span) := by
  unfold identRule
  refine preservesIn_read.bind fun context => preservesIn_get.bind fun s => ?_
  split
  · exact preservesIn_pure _
  split
  · exact preservesIn_ite (keeps_build (StoreM.preserves_instantiateFresh hP _))
      (preservesIn_pure _)
  split
  · exact keeps_build (StoreM.preserves_instantiateFresh hP _)
  · exact keeps_fault _

theorem keeps_callRule (id : ExprId) (span calleeSpan : Span) (callee : TypeId)
    (args : List TypeId) (argSpans : List Span) :
    Keeps P (callRule id span calleeSpan callee args argSpans) := by
  unfold callRule
  refine (keeps_query _).bind fun callee => (keeps_query _).bind fun sig? => ?_
  cases sig? with
  | none =>
    refine (keeps_freshVar hP).bind fun result => ?_
    refine (keeps_build (StoreM.preserves_function hP _)).bind fun shape => ?_
    exact (keeps_equal _ _ _ _).bind fun _ => preservesIn_pure _
  | some sig =>
    refine preservesIn_ite_bind (keeps_incomplete _) ?_
    refine (keeps_argumentsRule _ _ _ _).bind fun _ => ?_
    refine preservesIn_ite_bind (fun _ _ h => h) ?_
    refine (keeps_freshVar hP).bind fun result => ?_
    exact (keeps_equal _ _ _ _).bind fun _ => preservesIn_pure _

theorem keeps_operatorVar (traitName : Name) (span : Span) :
    Keeps P (operatorVar traitName span) := by
  unfold operatorVar
  refine preservesIn_read.bind fun context => ?_
  split
  · exact (keeps_fault _).bind fun _ => preservesIn_pure _
  · refine (keeps_freshVar hP).bind fun shared => ?_
    refine (keeps_build (StoreM.preserves_traitType hP _ _ _)).bind fun obligation => ?_
    exact (keeps_oblige _ _).bind fun _ => preservesIn_pure _

theorem keeps_binaryRule (op : BinaryOp) (span : Span) (left right : TypeId)
    (leftSpan rightSpan : Span) :
    Keeps P (binaryRule op span left right leftSpan rightSpan) := by
  unfold binaryRule
  split
  · exact (keeps_equal _ _ _ _).bind fun _ => (keeps_equal _ _ _ _).bind fun _ =>
      preservesIn_pure _
  · refine (keeps_operatorVar hP _ _).bind fun shared? => ?_
    split
    · exact preservesIn_pure _
    · exact (keeps_equal _ _ _ _).bind fun _ => (keeps_equal _ _ _ _).bind fun _ =>
        preservesIn_pure _

theorem keeps_unaryRule (op : UnaryOp) (span : Span) (operand : TypeId) (operandSpan : Span) :
    Keeps P (unaryRule op span operand operandSpan) := by
  cases op with
  | neg =>
    refine (keeps_operatorVar hP _ _).bind fun shared? => ?_
    split
    · exact preservesIn_pure _
    · exact (keeps_equal _ _ _ _).bind fun _ => preservesIn_pure _
  | not => exact (keeps_equal _ _ _ _).bind fun _ => preservesIn_pure _
  | addressOf => exact keeps_build (StoreM.preserves_pointer hP _)
  | deref =>
    refine (keeps_freshVar hP).bind fun target => ?_
    refine (keeps_build (StoreM.preserves_pointer hP _)).bind fun pointer => ?_
    exact (keeps_equal _ _ _ _).bind fun _ => preservesIn_pure _

theorem keeps_freshProduct (decl : TypeId) : Keeps P (freshProduct decl) := by
  unfold freshProduct
  refine (keeps_build (DeclM.preserves_instantiateAtFresh hP decl)).bind fun result => ?_
  cases result with
  | error e => exact preservesIn_pure _
  | ok inst => exact (keeps_query _).bind fun _ => preservesIn_pure _

theorem keeps_fieldRule (field : Name) (span : Span) (receiver : TypeId) (receiverSpan : Span) :
    Keeps P (fieldRule field span receiver receiverSpan) := by
  unfold fieldRule
  refine (keeps_query _).bind fun owners => ?_
  split
  · exact keeps_fault _
  · refine (keeps_freshProduct hP _).bind fun inst? => ?_
    split
    · exact preservesIn_pure _
    · split
      · exact preservesIn_pure _
      · exact (keeps_equal _ _ _ _).bind fun _ => preservesIn_pure _
  · exact (keeps_query _).bind fun names => keeps_fault _

theorem keeps_constructRule (name : Name) (span : Span) (args : List TypeId)
    (argSpans : List Span) : Keeps P (constructRule name span args argSpans) := by
  unfold constructRule
  refine (keeps_query _).bind fun decl? => ?_
  split
  · exact keeps_fault _
  · refine (keeps_freshProduct hP _).bind fun inst? => ?_
    split
    · exact preservesIn_pure _
    · refine preservesIn_ite_bind (keeps_incomplete _) ?_
      exact (keeps_argumentsRule _ _ _ _).bind fun _ => preservesIn_pure _

theorem keeps_writtenRule (written : TypeExpr) (span : Span) :
    Keeps P (writtenRule written span) := by
  unfold writtenRule
  refine (keeps_build (preserves_resolve hP span written)).bind fun result => ?_
  cases result with
  | ok ty => exact preservesIn_pure _
  | error f => exact keeps_fault _

theorem keeps_paramsRule (params : List Param) : Keeps P (paramsRule params) := by
  induction params with
  | nil => exact preservesIn_pure _
  | cons p params ih =>
    rw [paramsRule]
    have hrest : ∀ ty, Keeps P (do
        bind p.name ty
        let tys ← paramsRule params
        return ty :: tys) := fun ty =>
      (keeps_bind _ _).bind fun _ => ih.bind fun tys => preservesIn_pure _
    split
    · exact (keeps_writtenRule hP _ _).bind hrest
    · exact (keeps_freshVar hP).bind hrest

end FindM

open FindM

mutual

/-- The walk of an expression. -/
theorem Expr.keeps_infer {P : Store → Prop} (hP : Lasting P) (e : Expr) :
    FindM.Keeps P e.infer := by
  cases e with
  | mk id span form => exact (form.keeps_infer hP id span).bind fun ty => keeps_record id ty

theorem ExprForm.keeps_infer {P : Store → Prop} (hP : Lasting P) (form : ExprForm) (id : ExprId)
    (span : Span) : FindM.Keeps P (form.infer id span) := by
  cases form with
  | int _ suffix =>
    cases suffix with
    | none => exact preservesIn_pure _
    | some s => exact keeps_suffixRule _ _ _
  | float _ suffix =>
    cases suffix with
    | none => exact preservesIn_pure _
    | some s => exact keeps_suffixRule _ _ _
  | bool _ => exact preservesIn_pure _
  | char _ => exact preservesIn_pure _
  | string _ => exact keeps_build (StoreM.preserves_pointer hP _)
  | unit => exact preservesIn_pure _
  | ident name => exact keeps_identRule hP name span
  | call callee args =>
    exact (callee.keeps_infer hP).bind fun _ => (keeps_inferAll hP args).bind fun _ =>
      keeps_callRule hP _ _ _ _ _ _
  | binary op left right =>
    exact (left.keeps_infer hP).bind fun _ => (right.keeps_infer hP).bind fun _ =>
      keeps_binaryRule hP _ _ _ _ _ _
  | unary op operand =>
    exact (operand.keeps_infer hP).bind fun _ => keeps_unaryRule hP _ _ _ _
  | field receiver name =>
    exact (receiver.keeps_infer hP).bind fun _ => keeps_fieldRule hP _ _ _ _
  | construct name args =>
    exact (keeps_inferAll hP args).bind fun _ => keeps_constructRule hP _ _ _ _
  | tuple items =>
    exact (keeps_inferAll hP items).bind fun _ => keeps_build (StoreM.preserves_tuple hP _)
  | array items =>
    exact (keeps_freshVar hP).bind fun elem => (keeps_inferElements hP elem items).bind fun _ =>
      keeps_build (StoreM.preserves_array hP _ _)
  | block items =>
    exact keeps_enterScope.bind fun _ => (keeps_inferAll hP items).bind fun _ =>
      keeps_exitScope.bind fun _ => preservesIn_pure _
  | ifThen condition thenBranch =>
    exact (condition.keeps_infer hP).bind fun _ => (keeps_equal _ _ _ _).bind fun _ =>
      (thenBranch.keeps_infer hP).bind fun _ => (keeps_equal _ _ _ _).bind fun _ =>
        preservesIn_pure _
  | ifElse condition thenBranch elseBranch =>
    exact (condition.keeps_infer hP).bind fun _ => (keeps_equal _ _ _ _).bind fun _ =>
      (thenBranch.keeps_infer hP).bind fun _ => (elseBranch.keeps_infer hP).bind fun _ =>
        (keeps_equal _ _ _ _).bind fun _ => preservesIn_pure _
  | select scrutinee arms =>
    exact (scrutinee.keeps_infer hP).bind fun _ => (keeps_freshVar hP).bind fun _ =>
      (keeps_inferArms hP _ _ arms).bind fun _ => (keeps_coverageRule _ _).bind fun _ =>
        preservesIn_pure _
  | loop condition body =>
    exact (condition.keeps_infer hP).bind fun _ => (keeps_equal _ _ _ _).bind fun _ =>
      (body.keeps_infer hP).bind fun _ => preservesIn_pure _
  | define name written init =>
    refine (init.keeps_infer hP).bind fun initTy => ?_
    cases written with
    | none => exact (keeps_bind _ _).bind fun _ => preservesIn_pure _
    | some written =>
      exact (keeps_writtenRule hP _ _).bind fun _ => (keeps_equal _ _ _ _).bind fun _ =>
        (keeps_bind _ _).bind fun _ => preservesIn_pure _
  | assign target value =>
    exact (target.keeps_infer hP).bind fun _ => (value.keeps_infer hP).bind fun _ =>
      (keeps_equal _ _ _ _).bind fun _ => preservesIn_pure _
  | ascribe expr written =>
    exact (expr.keeps_infer hP).bind fun _ => (keeps_writtenRule hP _ _).bind fun _ =>
      (keeps_equal _ _ _ _).bind fun _ => preservesIn_pure _
  | lambda params body =>
    exact keeps_enterScope.bind fun _ => (keeps_paramsRule hP params).bind fun _ =>
      (body.keeps_infer hP).bind fun _ => keeps_exitScope.bind fun _ =>
        keeps_build (StoreM.preserves_function hP _)

theorem keeps_inferAll {P : Store → Prop} (hP : Lasting P) (es : List Expr) :
    FindM.Keeps P (inferAll es) := by
  cases es with
  | nil => exact preservesIn_pure _
  | cons e es =>
    exact (e.keeps_infer hP).bind fun _ => (keeps_inferAll hP es).bind fun _ => preservesIn_pure _

theorem keeps_inferElements {P : Store → Prop} (hP : Lasting P) (elem : TypeId) (es : List Expr) :
    FindM.Keeps P (inferElements elem es) := by
  cases es with
  | nil => exact preservesIn_pure _
  | cons e es =>
    exact (e.keeps_infer hP).bind fun _ => (keeps_equal _ _ _ _).bind fun _ =>
      keeps_inferElements hP elem es

theorem keeps_inferArms {P : Store → Prop} (hP : Lasting P) (scrutinee result : TypeId)
    (arms : List Arm) : FindM.Keeps P (inferArms scrutinee result arms) := by
  cases arms with
  | nil => exact preservesIn_pure _
  | cons arm arms =>
    obtain ⟨pattern, body, span⟩ := arm
    exact keeps_enterScope.bind fun _ => (pattern.keeps_check hP _ _).bind fun _ =>
      (body.keeps_infer hP).bind fun _ => (keeps_equal _ _ _ _).bind fun _ =>
        keeps_exitScope.bind fun _ => keeps_inferArms hP scrutinee result arms

theorem Pattern.keeps_check {P : Store → Prop} (hP : Lasting P) (p : Pattern) (expected : TypeId)
    (span : Span) : FindM.Keeps P (p.check expected span) := by
  cases p with
  | wildcard _ => exact preservesIn_pure _
  | binding _ name => exact keeps_bind _ _
  | literal _ expr => exact (expr.keeps_infer hP).bind fun _ => keeps_equal _ _ _ _
  | tuple _ items =>
    refine (preservesIn_mapM (fun _ => keeps_freshVar hP) items).bind fun parts => ?_
    exact (keeps_build (StoreM.preserves_tuple hP _)).bind fun _ =>
      (keeps_equal _ _ _ _).bind fun _ => keeps_checkAll hP _ _ items
  | tag _ name items =>
    rw [Pattern.check]
    refine (keeps_query _).bind fun decl? => ?_
    split
    · exact (keeps_fault _).bind fun _ => preservesIn_pure _
    · refine (keeps_freshProduct hP _).bind fun inst? => ?_
      split
      · exact preservesIn_pure _
      · refine (keeps_equal _ _ _ _).bind fun _ => ?_
        exact preservesIn_ite_bind (keeps_incomplete _) (keeps_checkAll hP _ _ items)

theorem keeps_checkAll {P : Store → Prop} (hP : Lasting P) (expected : List TypeId) (span : Span)
    (ps : List Pattern) : FindM.Keeps P (checkAll expected span ps) := by
  cases ps with
  | nil => exact preservesIn_pure _
  | cons p ps =>
    cases expected with
    | nil => exact preservesIn_pure _
    | cons ty tys =>
      exact (p.keeps_check hP _ _).bind fun _ => keeps_checkAll hP tys span ps

end

namespace FindM

variable {P : Store → Prop} (hP : Lasting P)
include hP

theorem keeps_functionRule (f : FunctionDecl) (ty : TypeId) : Keeps P (functionRule f ty) := by
  unfold functionRule
  refine (keeps_query _).bind fun sig? => ?_
  split
  · next sig body _ =>
    refine keeps_enterScope.bind fun _ => ?_
    refine (preservesIn_forM (fun _ => keeps_bind _ _) _).bind fun _ => ?_
    exact (body.keeps_infer hP).bind fun _ => (keeps_equal _ _ _ _).bind fun _ => keeps_exitScope
  · exact preservesIn_pure _

theorem keeps_findGroup (members : List (FunctionDecl × TypeId)) :
    Keeps P (findGroup members) := by
  unfold findGroup
  refine preservesIn_forM (fun m => ?_) members
  exact keeps_functionRule hP m.1 m.2

end FindM

/-! ## Applying a solution -/

namespace ApplyM

variable {α : Type} {P : Store → Prop}

/-- An application keeps a property of the stores that it goes through. -/
abbrev Keeps (P : Store → Prop) (act : ApplyM α) : Prop :=
  PreservesIn (fun s : ApplyState => P s.store) act

theorem keeps_build {act : StoreM α} (h : Preserves P act) : Keeps P (build act) :=
  fun _ s hs => h s.store hs

variable (hP : Lasting P)
include hP

theorem keeps_solved (ty : TypeId) : Keeps P (solved ty) :=
  preservesIn_read.bind fun _ => keeps_build (StoreM.preserves_apply hP _ ty)

theorem keeps_discharge (obligation : TypeId) (span : Span) :
    Keeps P (discharge obligation span) := by
  unfold discharge
  refine (keeps_solved hP obligation).bind fun obligation => preservesIn_get.bind fun s => ?_
  refine preservesIn_ite (preservesIn_pure _) (preservesIn_ite ?_ ?_)
  · refine preservesIn_modify fun s h => ?_
    dsimp only
    split <;> exact h
  · refine preservesIn_read.bind fun context => ?_
    refine (keeps_build (StoreM.preserves_isImplemented hP _ _)).bind fun met => ?_
    refine preservesIn_ite (preservesIn_modify fun s h => ?_) (preservesIn_pure _)
    split <;> exact h

theorem keeps_settleSite (site? : Option CallSite) : Keeps P (settleSite site?) := by
  cases site? with
  | none => exact preservesIn_pure _
  | some site =>
    refine (keeps_solved hP site.callee).bind fun callee => preservesIn_get.bind fun s => ?_
    split
    · exact preservesIn_forM (fun given => keeps_discharge hP given site.span) _
    · exact preservesIn_pure _

theorem keeps_visit (expr : ExprId) : Keeps P (visit expr) := by
  intro context s h
  rw [visit_apply]
  refine keeps_settleSite hP _ context _ ?_
  unfold recordSolved
  split
  · exact StoreM.preserves_apply hP context.bindings _ s.store h
  · exact h

theorem keeps_applyTo (exprs : List ExprId) (obligations : List (TypeId × Span)) :
    Keeps P (applyTo exprs obligations) := by
  unfold applyTo
  refine (preservesIn_forM (keeps_visit hP) exprs).bind fun _ => ?_
  refine preservesIn_forM (fun o => ?_) obligations
  exact keeps_discharge hP o.1 o.2

end ApplyM

end ConstraintTyping
