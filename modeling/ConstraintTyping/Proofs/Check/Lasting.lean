import ConstraintTyping.Proofs.Check.Groups
import ConstraintTyping.Proofs.Infer.Lasting

/-!
# What lasts through a check

Registration, signatures, the check of bodies and the last step of a check change a store only by
what every lasting property outlasts.  So a property that lasts and holds of the empty store holds
of the store of every checked module, whatever faults are found in it.
-/

namespace ConstraintTyping

open Store

namespace StoreM

variable {P : Store → Prop} (hP : Lasting P)
include hP

theorem preserves_generalize (ty : TypeId) (obligations : List TypeId) :
    Preserves P (generalize ty obligations) := by
  unfold generalize
  refine preserves_get.bind fun st => ?_
  split
  · exact preserves_pure ty
  · refine (preserves_function hP _).bind fun withGivens => preserves_get.bind fun st' => ?_
    refine Preserves.bind ?_ fun mapping => preserves_substituteAll hP mapping withGivens
    exact preserves_mapM fun v _ => (preserves_namedVar hP _).bind fun w => preserves_pure (v.1, w)

end StoreM

namespace CheckM

variable {α : Type} {P : Store → Prop}

/-- A step of a check keeps a property of the stores that it goes through. -/
abbrev Keeps (P : Store → Prop) (act : CheckM α) : Prop :=
  Preserves (fun s : CheckState => P s.store) act

theorem keeps_build {act : StoreM α} (h : Preserves P act) : Keeps P (build act) :=
  fun s hs => h s.store hs

theorem keeps_report (f : TypeFault) : Keeps P (report f) := fun _ h => h

theorem keeps_declareAt {act : DeclM α} (span : Span) (h : Preserves P act.run) :
    Keeps P (declareAt span act) := by
  unfold declareAt
  refine (keeps_build h).bind fun result => ?_
  cases result with
  | ok a => exact preserves_pure _
  | error e => exact (keeps_report _).bind fun _ => preserves_pure _

theorem keeps_finishFunction (name : Name) (ty : TypeId) : Keeps P (finishFunction name ty) :=
  preserves_modify fun _ h => h

theorem keeps_failGroup (members : List (FunctionDecl × TypeId)) : Keeps P (failGroup members) :=
  preserves_forM (fun _ => keeps_finishFunction _ _) members

variable (hP : Lasting P)
include hP

/-! ## Registration -/

theorem keeps_resolve (written : TypeExpr) (span : Span) : Keeps P (resolve written span) := by
  unfold resolve
  refine (keeps_build (preserves_resolve hP span written)).bind fun result => ?_
  cases result with
  | ok ty => exact preserves_pure _
  | error f => exact (keeps_report f).bind fun _ => preserves_pure _

theorem keeps_resolveEach (written : List TypeExpr) (span : Span) :
    Keeps P (resolveEach written span) :=
  preserves_mapM fun w _ => keeps_resolve hP w span

theorem keeps_declareType (d : TypeDecl) : Keeps P (declareType d) := by
  have hdeclare : ∀ (span : Span) (k : DeclKind) (name : Name) (params : List Name),
      Keeps P (declareAt span (DeclM.declare k name params)) := fun span k name params =>
    keeps_declareAt span fun _ h => hP.declare h
  unfold declareType
  split
  · exact (hdeclare _ _ _ _).bind fun ty => preserves_pure _
  · refine (hdeclare _ _ _ _).bind fun ty? => ?_
    cases ty? with
    | none => exact preserves_pure _
    | some ty =>
      refine Preserves.bind (Preserves.bind (preserves_mapM fun tag _ => ?_) fun _ =>
        preserves_pure _) fun tags => preserves_pure _
      exact (hdeclare _ _ _ _).bind fun ty => preserves_pure _

theorem keeps_defineFields (ty : TypeId) (fields : List FieldDecl) (span : Span) :
    Keeps P (defineFields ty fields span) := by
  unfold defineFields
  refine (preserves_mapM fun f _ => keeps_resolve hP f.written f.span).bind fun types => ?_
  exact (keeps_declareAt span (DeclM.preserves_defineProduct hP.define _ _ _)).bind fun _ =>
    preserves_pure _

theorem keeps_defineType (pending : PendingType) : Keeps P (defineType pending) := by
  cases pending with
  | product ty fields span => exact keeps_defineFields hP ty fields span
  | sum ty tags span =>
    unfold defineType
    refine (preserves_forM (fun tag => ?_) tags).bind fun _ => ?_
    · exact keeps_defineFields hP tag.1 tag.2.fields tag.2.span
    · exact (keeps_declareAt span (DeclM.preserves_defineSum hP.define hP.bindParent _ _)).bind fun _ =>
        preserves_pure _

theorem keeps_registerTypes (types : List TypeDecl) : Keeps P (registerTypes types) :=
  (preserves_mapM fun d _ => keeps_declareType hP d).bind fun _ =>
    preserves_forM (keeps_defineType hP) _

theorem keeps_registerTrait (d : TraitDecl) : Keeps P (registerTrait d) := by
  unfold registerTrait
  refine Preserves.bind (preserves_mapM fun m _ => ?_) fun methods => ?_
  · exact (keeps_resolveEach hP _ _).bind fun _ => (keeps_resolve hP _ _).bind fun _ =>
      preserves_pure _
  · refine preserves_get.bind fun s => ?_
    refine (keeps_build (StoreM.preserves_register hP _ _ _ _)).bind fun result => ?_
    cases result with
    | ok r => exact preserves_modify fun _ h => h
    | error e => exact keeps_report _

theorem keeps_resolveTraitRef (explain : TraitError → TypeFault) (r : TraitRef) :
    Keeps P (resolveTraitRef explain r) := by
  unfold resolveTraitRef
  refine (keeps_resolveEach hP _ _).bind fun args => ?_
  split
  · exact (keeps_report _).bind fun _ => preserves_pure _
  · refine preserves_get.bind fun s => ?_
    refine (keeps_build (StoreM.preserves_obligation hP _ _ _ _)).bind fun result => ?_
    cases result with
    | ok ty => exact preserves_pure _
    | error e => exact (keeps_report _).bind fun _ => preserves_pure _

theorem keeps_registerImpl (d : TraitRef) : Keeps P (registerImpl d) := by
  unfold registerImpl
  refine (keeps_resolveTraitRef hP _ _).bind fun ty? => ?_
  cases ty? with
  | none => exact preserves_pure _
  | some ty => exact preserves_modify fun _ h => h

/-! ## Signatures -/

theorem keeps_resolveOrFresh (written : Option TypeExpr) (span : Span) :
    Keeps P (resolveOrFresh written span) := by
  cases written with
  | some w => exact keeps_resolve hP w span
  | none => exact keeps_build (StoreM.preserves_freshVar hP)

theorem keeps_signature (f : FunctionDecl) : Keeps P (signature f) := by
  unfold signature
  refine (preserves_mapM fun p _ => keeps_resolveOrFresh hP _ _).bind fun params => ?_
  refine (keeps_resolveOrFresh hP _ _).bind fun ret => ?_
  refine (preserves_mapM fun bound _ => keeps_resolveTraitRef hP _ _).bind fun givens => ?_
  exact keeps_build (StoreM.preserves_function hP _)

theorem keeps_collectSignature (f : FunctionDecl) : Keeps P (collectSignature f) := by
  unfold collectSignature
  refine preserves_get.bind fun s => preserves_ite (keeps_report _) ?_
  exact (keeps_signature hP f).bind fun ty => preserves_modify fun _ h => h

/-- Everything that comes before bodies. -/
theorem keeps_prepare (m : Module) : Keeps P (prepare m) :=
  (keeps_registerTypes hP _).bind fun _ =>
    (preserves_forM (keeps_registerTrait hP) _).bind fun _ =>
      (preserves_forM (keeps_registerImpl hP) _).bind fun _ =>
        preserves_forM (keeps_collectSignature hP) _

/-! ## Bodies -/

theorem keeps_findGroup (members : List (FunctionDecl × TypeId)) : Keeps P (findGroup members) :=
  fun _ h => FindM.keeps_findGroup hP members _ _ h

theorem keeps_applyGroup (members : List (FunctionDecl × TypeId)) (finding : Finding)
    (solution : Solution) : Keeps P (applyGroup members finding solution) :=
  fun _ h => ApplyM.keeps_applyTo hP _ _ _ _ h

theorem keeps_solveAll (config : CheckConfig) (constraints : List Constraint) :
    Keeps P (solveAll config constraints) := by
  unfold solveAll
  refine (keeps_build (StoreM.preserves_solve hP _ _)).bind fun solution => ?_
  refine preserves_get.bind fun s => ?_
  exact (preserves_forM (fun _ => keeps_report _) _).bind fun _ => preserves_pure _

theorem keeps_publishGroup (members : List (FunctionDecl × TypeId)) (solved : List TypeId)
    (applied : Applied) : Keeps P (publishGroup members solved applied) := by
  unfold publishGroup
  refine Preserves.bind (preserves_modify ?_) fun _ => preserves_forM (fun m => ?_) _
  · exact fun _ h => h
  refine preserves_get.bind fun s => ?_
  exact (keeps_build (StoreM.preserves_generalize hP _ _)).bind fun ty => keeps_finishFunction _ _

theorem keeps_checkGroup (config : CheckConfig) (group : List FunctionDecl) :
    Keeps P (checkGroup config group) := by
  unfold checkGroup
  refine preserves_get.bind fun s => preserves_get.bind fun s' => ?_
  refine (keeps_findGroup hP _).bind fun finding => preserves_ite (keeps_failGroup _) ?_
  refine (keeps_solveAll hP config _).bind fun solution => preserves_get.bind fun s₁ => ?_
  refine preserves_ite (keeps_failGroup _) ?_
  refine Preserves.bind (preserves_mapM fun m _ => ?_) fun solved => ?_
  · exact keeps_build (StoreM.preserves_apply hP _ _)
  refine (keeps_applyGroup hP _ finding solution).bind fun applied =>
    preserves_get.bind fun s₂ => ?_
  exact preserves_ite (keeps_failGroup _) (keeps_publishGroup hP _ solved applied)

theorem keeps_checkGroups (config : CheckConfig) (groups : List (List FunctionDecl)) :
    Keeps P (checkGroups config groups) := by
  induction groups with
  | nil => exact preserves_pure _
  | cons group rest ih =>
    exact (keeps_checkGroup hP config group).bind fun _ => preserves_get.bind fun s =>
      preserves_ite (preserves_pure _) ih

theorem keeps_materializeExprTypes : Keeps P materializeExprTypes :=
  preserves_get.bind fun _ =>
    preserves_forM (fun ty => keeps_build (StoreM.preserves_materializeAll hP ty)) _

end CheckM

namespace Module

open CheckM

variable {P : Store → Prop} (hP : Lasting P) (hnew : P Store.new) (m : Module)
  (config : CheckConfig) (log : DiagnosticLog)
include hP hnew

/-- What lasts holds of the store when all bodies are checked, if it holds of the empty one. -/
theorem lasting_checked : P (m.checked config log).store := by
  refine keeps_checkGroups hP config _ _ ?_
  have hstart : P (start config log).store := by
    have hoperators := StoreM.preserves_operators hP Store.new hnew
    unfold start
    generalize TraitTable.operators Store.new = operators at hoperators
    exact hoperators
  exact keeps_prepare hP m (start config log) hstart

theorem lasting_check : P (m.check config log).store := by
  rw [check_eq]
  exact keeps_materializeExprTypes hP _ (m.lasting_checked hP hnew config log)

end Module

end ConstraintTyping
