import ConstraintTyping.Check.Bodies
import ConstraintTyping.Proofs.Check.Generalize
import ConstraintTyping.Proofs.Check.Signatures
import ConstraintTyping.Proofs.Infer.Applied
import ConstraintTyping.Proofs.Infer.Group

/-!
# Checking a group of bodies

A group is checked all or nothing.  Either an error was reported, its functions get the error type and
no type of an expression is published; or none was, and then its bodies were walked to the end, the
equations found there are solved, every expression of the bodies has its solved type on record, and
each function has the general form of its solved type.  No other function is touched.
-/

namespace ConstraintTyping

open Store StoreM TypeTree

/-- The numbers of the expressions in the bodies of functions. -/
def bodyExprs (group : List FunctionDecl) : List ExprId :=
  group.flatMap fun f => f.subexprs.map Expr.id

theorem DiagnosticLog.errorsSince_iff {log : DiagnosticLog} {count : Nat} :
    log.errorsSince count = true ↔ count < log.errorCount := by
  simp [DiagnosticLog.errorsSince]

/-- What a walk found gives rise to no error: its equations can be solved, and then all obligations
are about variables. -/
structure FindState.Open (limit : Nat) (walk : FindState) (last : Bound) : Prop where
  solves : SolvesInOrder limit []
    (walk.finding.constraints.toList.filterMap (Constraint.equation? walk.store)) last
  obligations : ∀ o ∈ walk.finding.constraints.toList.filterMap Constraint.obligation?,
    (applyAll last (walk.store.tree o.1)).Generic
  sites : ∀ site ∈ walk.finding.callSites.toList, ∀ sig,
    applyAll last (walk.store.tree site.callee) = .mk (.function sig) → ∀ o ∈ sig.givens, o.Generic

namespace CheckState

variable {s s₁ s' : CheckState} {group : List FunctionDecl} {names : List Name}

/-- What bodies refer to. -/
def context (s : CheckState) : FindContext := { traits := s.traits, globals := s.globals }

/-- The functions of a group with their provisional types. -/
def members (s : CheckState) (group : List FunctionDecl) : List (FunctionDecl × TypeId) :=
  group.filterMap fun f => s.globals[f.name]?.map fun g => (f, g.ty)

/-- The functions of a group have names of their own, bodies, and provisional types over what is
written of them. -/
structure Waits (s : CheckState) (group : List FunctionDecl) : Prop where
  nodup : (group.map FunctionDecl.name).Nodup
  waits : ∀ f ∈ group, ∃ ty, s.globals[f.name]? = some ⟨ty, false⟩ ∧ s.SignatureOf f ty ∧
    ∃ body, f.body = some body

theorem Waits.map_members (h : s.Waits group) : (s.members group).map Prod.fst = group := by
  have hwaits := h.waits
  clear h
  induction group with
  | nil => rfl
  | cons f group ih =>
    obtain ⟨⟨ty, hty, -⟩, hwaits⟩ := List.forall_mem_cons.mp hwaits
    have hcons : s.members (f :: group) = (f, ty) :: s.members group := by
      rw [members, List.filterMap_cons, hty]
      rfl
    rw [hcons, List.map_cons, ih hwaits]

theorem Waits.bodyExprs_members (h : s.Waits group) :
    ((s.members group).flatMap fun m => m.1.subexprs.map Expr.id) = bodyExprs group := by
  conv_rhs => rw [bodyExprs, ← h.map_members, List.flatMap_map]

theorem Waits.member (h : s.Waits group) {m : FunctionDecl × TypeId}
    (hm : m ∈ s.members group) :
    m.1 ∈ group ∧ s.globals[m.1.name]? = some ⟨m.2, false⟩ ∧ s.SignatureOf m.1 m.2 := by
  obtain ⟨f, hf, hmap⟩ := List.mem_filterMap.mp hm
  obtain ⟨ty, hty, hsig, -⟩ := h.waits f hf
  rw [hty] at hmap
  obtain rfl := Option.some.inj hmap
  exact ⟨hf, hty, hsig⟩

theorem Waits.isMember (h : s.Waits group) {m : FunctionDecl × TypeId}
    (hm : m ∈ s.members group) : FindM.IsMember s.store m := by
  obtain ⟨hf, -, hsig⟩ := h.member hm
  obtain ⟨sig, hsignature, -⟩ := hsig.signature
  obtain ⟨-, -, -, hbody⟩ := h.waits m.1 hf
  exact ⟨hsig.sound.1, ⟨sig, hsignature⟩, hbody⟩

/-- The functions with given names get final types, and the others are left as they are. -/
structure Finishes (names : List Name) (s s' : CheckState) : Prop where
  traits : s'.traits = s.traits
  others : ∀ name ∉ names, s'.globals[name]? = s.globals[name]? ∧
    s'.functions[name]? = s.functions[name]?
  finished : ∀ name ∈ names, ∃ ty < s'.store.size, s'.globals[name]? = some ⟨ty, true⟩ ∧
    s'.functions[name]? = some ty

theorem Finishes.of_onlyTypes (h : Finishes names s₁ s') (hsame : s.OnlyTypes s₁) :
    Finishes names s s' where
  traits := h.traits.trans hsame.traits
  others name hname := by
    rw [← hsame.globals, ← hsame.functions]
    exact h.others name hname
  finished := h.finished

/-- An obligation is settled: the error type occurs in it, or variables do and it is left open, or it
was looked up, some time after a given store, and an implementation provides it. -/
def Settles (s : CheckState) (st : Store) (retained : List TypeTree) (o : TypeTree) : Prop :=
  ∃ ty, ty < s.store.size ∧ s.store.tree ty = o ∧ (s.store.hasError ty = true ∨
    (s.store.isGeneric ty = true ∧ o ∈ retained) ∨
    s.store.isGeneric ty = false ∧ ∃ mid, st ≤ mid ∧ mid ≤ s.store ∧
      (s.traits.isImplemented ty mid).1 = true)

/-- A group is published: what was found in its bodies is solved and read through the solution. -/
structure Publishes (config : CheckConfig) (group : List FunctionDecl) (s s' : CheckState)
    (total : Found) (last : Bound) (retained : List TypeTree) : Prop where
  errors : s'.log.errorCount = s.log.errorCount
  finds : GroupFinds (s.context.surroundings s.store) s'.store ⟨s.store.vars, [], [], []⟩
    (s.members group) total
  solves : SolvesInOrder config.maxUnifySteps [] total.equations last
  recorded : ∀ id ∈ bodyExprs group, ∃ t ty,
    (id, t) ∈ total.records ∧ s'.exprTypes[id]? = some ty ∧ ty < s'.store.size ∧
      s'.store.tree ty = applyAll last t
  others : ∀ id ∉ bodyExprs group,
    s'.exprTypes[id]? = s.exprTypes[id]?
  faultless : ∀ o ∈ retained, o.Faultless
  general : ∀ m ∈ s.members group, ∃ ty, s'.functions[m.1.name]? = some ty ∧ ty < s'.store.size ∧
    (s'.store.tree ty).IsGeneralForm (applyAll last (s'.store.tree m.2))
      ((s.members group).map fun m => applyAll last (s'.store.tree m.2)) retained
  settled : (total.sites.map Prod.fst).Nodup → ∀ c ∈ total.sites,
    (c.1 ∈ bodyExprs group) → ∀ sig,
      applyAll last c.2 = .mk (.function sig) → ∀ o ∈ sig.givens, s'.Settles s.store retained o

/-- Where the walk over the bodies of a group ends. -/
def walk (s : CheckState) (group : List FunctionDecl) : FindState :=
  (FindM.runWalk (FindM.findGroup (s.members group)) s.context s.store s.log).2

/-- Nothing in the bodies of a group gives rise to an error. -/
def Accepts (config : CheckConfig) (group : List FunctionDecl) (s : CheckState) : Prop :=
  (s.walk group).log.errorCount = s.log.errorCount ∧
    ∃ last, (s.walk group).Open config.maxUnifySteps last

/-- How checking a group ends. -/
inductive GroupEnds (config : CheckConfig) (group : List FunctionDecl) (s s' : CheckState) : Prop
  | failed (errors : s.log.errorCount < s'.log.errorCount) (exprTypes : s'.exprTypes = s.exprTypes)
      (functions : ∀ f ∈ group, s'.functions[f.name]? = some TypeId.error)
      (refused : ¬ Accepts config group s)
  | published {total : Found} {last : Bound} {retained : List TypeTree}
      (h : Publishes config group s s' total last retained)

/-- What checking a group comes to. -/
structure Checks (config : CheckConfig) (group : List FunctionDecl) (s s' : CheckState) : Prop where
  store : DeclM.EndsWell s.store s'.store
  functions : Finishes (group.map FunctionDecl.name) s s'
  errors : s.log.errorCount ≤ s'.log.errorCount
  ended : GroupEnds config group s s'

end CheckState

namespace CheckM

open CheckState

variable {α : Type} {s : CheckState} {group : List FunctionDecl}

/-! ## The steps -/

/-- The bodies of a group are walked. -/
structure Walked (group : List FunctionDecl) (s : CheckState) (walk : FindState)
    (records : List (ExprId × TypeId)) : Prop where
  walk_eq : s.walk group = walk
  goes : FindState.Goes (s.context.surroundings s.store) s.context ⟨s.store, {}, {}, s.log⟩ walk
    records
  finds : walk.log.errorCount = s.log.errorCount → ∀ T, walk.store ≤ T →
    GroupFinds (s.context.surroundings s.store) T ⟨s.store.vars, [], [], []⟩ (s.members group)
      (walk.found T records)

theorem Walked.ends {walk : FindState} {records : List (ExprId × TypeId)}
    (h : Walked group s walk records) : DeclM.EndsWell s.store walk.store :=
  ⟨h.goes.store, h.goes.ready.implements.coherent⟩

theorem Walked.same {walk : FindState} {records : List (ExprId × TypeId)}
    (h : Walked group s walk records) :
    s.OnlyTypes { s with store := walk.store, log := walk.log } :=
  ⟨⟨rfl, rfl, rfl, h.goes.errors⟩, rfl⟩

/-- The bodies of a group are walked from what is registered. -/
theorem ends_findGroup (hs : s.Registered) (hcontext : s.context.Within s.store)
    (hmembers : ∀ m ∈ s.members group, FindM.IsMember s.store m) :
    Ends (findGroup (s.members group)) s fun finding s' => ∃ walk records,
      Walked group s walk records ∧ finding = walk.finding ∧
      s' = { s with store := walk.store, log := walk.log } := by
  obtain ⟨records, hgoes, -, hfinds⟩ := FindM.does_findGroup (s.members group)
    (FindM.ready_start s.log hs.coherent hs.complete hcontext) rfl hmembers
  exact ⟨_, records, ⟨rfl, hgoes, fun herr T hT => hfinds herr T hT [] (by simp)⟩, rfl, rfl⟩

/-- Faults are reported one by one. -/
theorem ends_reportEach (xs : List α) (f : α → TypeFault) :
    Ends (xs.forM fun x => report (f x)) s fun _ s' => s.OnlyTypes s' ∧ s'.store = s.store ∧
      s'.log.errorCount = s.log.errorCount + xs.length := by
  induction xs generalizing s with
  | nil => exact ends_pure ⟨.refl s, rfl, rfl⟩
  | cons x xs ih =>
    refine Ends.bind (Q := fun _ s₁ => s.OnlyTypes s₁ ∧ s₁.store = s.store ∧
      s₁.log.errorCount = s.log.errorCount + 1) ⟨(ends_report (f x) s).1, rfl, rfl⟩ ?_
    rintro _ s₁ ⟨hsame, hstore, hcount⟩
    refine ih.mono ?_
    rintro _ s₂ ⟨hsame₂, hstore₂, hcount₂⟩
    refine ⟨hsame.trans hsame₂, hstore₂.trans hstore, ?_⟩
    rw [hcount₂, hcount, List.length_cons]
    omega

/-- Each failure of the solver is an error. -/
theorem ends_solveAll (config : CheckConfig) (cs : List Constraint) :
    Ends (solveAll config cs) s fun sol s' => s.OnlyTypes s' ∧
      sol = (solve config.maxUnifySteps cs s.store).1 ∧
      s'.store = (solve config.maxUnifySteps cs s.store).2 ∧
      s'.log.errorCount = s.log.errorCount + sol.failures.length := by
  refine Ends.bind (Q := fun sol s₁ => sol = (solve config.maxUnifySteps cs s.store).1 ∧
    s₁ = { s with store := (solve config.maxUnifySteps cs s.store).2 }) (ends_build ⟨rfl, rfl⟩) ?_
  rintro sol s₁ ⟨hsol, rfl⟩
  refine ends_get_bind ((ends_reportEach _ _).bind ?_)
  rintro _ s₂ ⟨hsame, hstore, hcount⟩
  exact ends_pure ⟨(s.onlyTypes_store _).trans hsame, hsol, hstore, hcount⟩

/-- What was found in the bodies of a group is solved. -/
structure Solved (config : CheckConfig) (group : List FunctionDecl) (s : CheckState)
    (walk : FindState) (records : List (ExprId × TypeId)) (sol : Solution) (s' : CheckState) : Prop
    extends Walked group s walk records where
  same : s.OnlyTypes s'
  ends : DeclM.EndsWell s.store s'.store
  le : walk.store ≤ s'.store
  ordered : sol.Ordered s'.store
  obligations : sol.obligations = walk.finding.constraints.toList.filterMap Constraint.obligation?
  errors : s'.log.errorCount = walk.log.errorCount + sol.failures.length
  solves : sol.failures = [] → SolvesInOrder config.maxUnifySteps []
    (walk.finding.constraints.toList.filterMap (Constraint.equation? walk.store))
    (sol.bindings.read s'.store)
  failures : ∀ last, SolvesInOrder config.maxUnifySteps []
    (walk.finding.constraints.toList.filterMap (Constraint.equation? walk.store)) last →
      sol.failures = []

theorem Walked.ends_solveAll {config : CheckConfig} {walk : FindState}
    {records : List (ExprId × TypeId)} (h : Walked group s walk records) :
    Ends (solveAll config walk.finding.constraints.toList)
      { s with store := walk.store, log := walk.log }
      fun sol s' => Solved config group s walk records sol s' := by
  have hconstraints := h.goes.ready.constraints
  have htakes := solve_takes config.maxUnifySteps hconstraints
  have hinOrder := @inOrder_solve walk.store config.maxUnifySteps _ hconstraints
  obtain ⟨hle, hnom⟩ := builds_solve config.maxUnifySteps walk.finding.constraints.toList walk.store
  refine (CheckM.ends_solveAll config walk.finding.constraints.toList).mono ?_
  rintro sol s' ⟨hsame, rfl, hstore, hcount⟩
  change s'.store = (solve config.maxUnifySteps walk.finding.constraints.toList walk.store).2
    at hstore
  rw [← hstore] at htakes hinOrder hle hnom
  exact
    { toWalked := h
      same := h.same.trans hsame
      ends := ⟨h.ends.1.trans (.of_nominals hle hnom), h.ends.2.of_nominals hle hnom⟩
      le := hle
      ordered := htakes.ordered
      obligations := htakes.obligations
      errors := hcount
      solves := hinOrder
      failures := fun _ => failures_solve hconstraints }

/-- If nothing in the bodies gives rise to an error, none is on record when they are solved. -/
theorem Solved.accepted {config : CheckConfig} {walk : FindState} {records : List (ExprId × TypeId)}
    {sol : Solution} {s' : CheckState} (h : Solved config group s walk records sol s')
    (haccepts : Accepts config group s) : s'.log.errorCount = s.log.errorCount ∧
      walk.Open config.maxUnifySteps (sol.bindings.read s'.store) := by
  obtain ⟨hquiet, last, hopen⟩ := haccepts
  rw [h.walk_eq] at hquiet hopen
  have hfailures := h.failures last hopen.solves
  refine ⟨?_, ?_⟩
  · rw [h.errors, hfailures]
    exact hquiet
  · rw [(h.solves hfailures).unique hopen.solves]
    exact hopen

/-- Building types is silent. -/
theorem log_mapM_build {β : Type} (xs : List α) (act : α → StoreM β) (s : CheckState) :
    ((xs.mapM fun x => build (act x)) s).2.log = s.log := by
  induction xs generalizing s with
  | nil => rfl
  | cons x xs ih =>
    rw [List.mapM_cons]
    exact ih { s with store := (act x s.store).2 }

/-- The types of the members are read through the solution. -/
theorem ends_applyMembers {members : List (FunctionDecl × TypeId)} {b : Bindings}
    (hco : s.store.Coherent) (hb : b.Within s.store)
    (hmembers : ∀ m ∈ members, FindM.IsMember s.store m) :
    Ends (members.mapM fun (_, ty) => build (b.apply ty)) s fun solved s' =>
      s'.log = s.log ∧ s.Advances s' ∧
      List.Forall₂ (fun m ty => ty < s'.store.size ∧ (∃ sig, s'.store.signature? ty = some sig) ∧
        s'.store.tree ty = applyAll (b.read s.store) (s.store.tree m.2)) members solved := by
  refine ⟨log_mapM_build members (fun m => b.apply m.2) s, ?_⟩
  refine ends_mapM (P := fun (m : FunctionDecl × TypeId) ty s' => ty < s'.store.size ∧
    (∃ sig, s'.store.signature? ty = some sig) ∧
      s'.store.tree ty = applyAll (b.read s.store) (s.store.tree m.2)) members hco ?_ ?_
  · rintro m ty s₁ s₂ hadv ⟨hlt, ⟨sig, hsig⟩, htree⟩
    exact ⟨lt_size_of_le hadv.store.le hlt,
      ⟨sig, (FindM.signature?_of_le hadv.store.le hlt).trans hsig⟩,
      (tree_of_le hadv.store.le hlt).trans htree⟩
  · intro m hm s₁ hadv
    obtain ⟨hlt, ⟨sig, hsig⟩, -⟩ := hmembers m hm
    have hle := hadv.store.le
    have hlt₁ := lt_size_of_le hle hlt
    have hshape := shape_of_signature? ((FindM.signature?_of_le hle hlt).trans hsig)
    obtain ⟨-, hty, htree⟩ := Bindings.yields_apply (hb.of_le hle) hlt₁
    obtain ⟨sig', hsig', -⟩ := Bindings.signature?_apply (hb.of_le hle) hlt₁ hshape
    refine ends_build ⟨Advances.of_builds hadv.coherent (builds_apply b m.2), hty, ⟨sig', hsig'⟩, ?_⟩
    rw [← Bindings.read_of_le hb hle, ← tree_of_le hle hlt]
    exact htree

/-- What an application of a solution to what was found works with. -/
def applyContext (traits : TraitTable) (finding : Finding) (sol : Solution) : ApplyContext where
  traits := traits
  bindings := sol.bindings
  recorded := finding.exprTypes
  callSites := Std.HashMap.ofList (finding.callSites.toList.map fun site => (site.expr, site))

section Apply

variable {W : Surroundings} {context : FindContext} {start walk : FindState}
  {records : List (ExprId × TypeId)} {sol : Solution} {st : Store} {traits : TraitTable}

theorem mem_callSites {finding : Finding} {expr : ExprId} {site : CallSite}
    (h : (applyContext traits finding sol).callSites[expr]? = some site) :
    site ∈ finding.callSites.toList := by
  change (Std.HashMap.ofList _)[expr]? = some site at h
  rw [ofList_eq_enterAll] at h
  have hmem := (mem_of_getElem?_enterAll h).resolve_right (by simp)
  obtain ⟨c, hc, heq⟩ := List.mem_map.mp hmem
  rw [← (Prod.mk.inj heq).2]
  exact hc

theorem within_applyContext (hgoes : start.Goes W context walk records)
    (hstart : start.finding.exprTypes = {}) (hsol : sol.Ordered st) (hle : walk.store ≤ st) :
    ApplyM.Within (applyContext traits walk.finding sol) st := by
  refine ⟨hsol.within, hsol.triangular, ?_, ?_⟩
  · intro expr ty hty
    change walk.finding.exprTypes[expr]? = some ty at hty
    rw [hgoes.exprTypes, hstart] at hty
    have hmem := (mem_of_getElem?_enterAll hty).resolve_right (by simp)
    exact lt_size_of_le hle (hgoes.records _ hmem)
  · intro expr site hsite
    obtain ⟨hlt, sig, hsig⟩ := hgoes.ready.sites site (mem_callSites hsite)
    exact ⟨lt_size_of_le hle hlt, sig, (shape_of_le hle hlt).trans hsig⟩

theorem siteOpen_applyContext (hgoes : start.Goes W context walk records) {limit : Nat}
    (hopen : walk.Open limit (sol.bindings.read st)) (hle : walk.store ≤ st) (expr : ExprId) :
    ApplyM.SiteOpen (applyContext traits walk.finding sol) st expr := by
  intro site hsite sig hsig
  have hmem := mem_callSites hsite
  refine hopen.sites site hmem sig ?_
  rw [← tree_of_le hle (hgoes.ready.sites site hmem).1]
  exact hsig

theorem generic_obligations (hgoes : start.Goes W context walk records) {limit : Nat}
    (hopen : walk.Open limit (sol.bindings.read st)) (hle : walk.store ≤ st) :
    ∀ o ∈ walk.finding.constraints.toList.filterMap Constraint.obligation?,
      (applyAll (sol.bindings.read st) (st.tree o.1)).Generic := by
  intro o ho
  obtain ⟨c, hc, hobligation⟩ := List.mem_filterMap.mp ho
  rw [tree_of_le hle (hgoes.ready.obligations c hc o hobligation)]
  exact hopen.obligations o ho

/-- The solution is applied to the bodies. -/
theorem ends_applyGroup {members : List (FunctionDecl × TypeId)} {finding : Finding}
    (hcontext : ApplyM.Within (applyContext s.traits finding sol) st) (hst : st ≤ s.store)
    (hobligations : ∀ o ∈ sol.obligations, o.1 < st.size) :
    Ends (applyGroup members finding sol) s fun applied s' => ∃ done : ApplyState,
      applied = done.applied ∧ s' = { s with store := done.store, log := done.log } ∧
      ApplyM.Applies (applyContext s.traits finding sol) st
        (members.flatMap fun m => m.1.subexprs.map Expr.id) sol.obligations
        { store := s.store, log := s.log } done :=
  ⟨_, rfl, rfl, ApplyM.applies_applyTo _ hcontext hobligations hst
    ⟨hcontext.bindings.of_le hst, by simp⟩⟩

/-- The solution of a group is applied to its bodies. -/
theorem Solved.ends_applyGroup {config : CheckConfig} {s₁ s₂ : CheckState} (hwaits : s.Waits group)
    (h : Solved config group s walk records sol s₁) (hadv : s₁.Advances s₂) :
    Ends (applyGroup (s.members group) walk.finding sol) s₂ fun applied s' => ∃ done : ApplyState,
      applied = done.applied ∧ s' = { s₂ with store := done.store, log := done.log } ∧
      ApplyM.Applies (applyContext s.traits walk.finding sol) s₁.store (bodyExprs group)
        sol.obligations { store := s₂.store, log := s₂.log } done := by
  have htraits := (h.same.trans hadv.toOnlyTypes).traits
  have hexprs := hwaits.bodyExprs_members
  rw [← htraits, ← hexprs]
  refine CheckM.ends_applyGroup (within_applyContext h.goes rfl h.ordered h.le) hadv.store.le ?_
  intro o ho
  rw [h.obligations] at ho
  obtain ⟨c, hc, hobligation⟩ := List.mem_filterMap.mp ho
  exact lt_size_of_le h.le (h.goes.ready.obligations c hc o hobligation)

/-- If nothing in the bodies gives rise to an error, none is reported when the solution is applied. -/
theorem Solved.quiet {config : CheckConfig} {s₁ s₂ : CheckState} {done : ApplyState}
    (h : Solved config group s walk records sol s₁) (hlog : s₂.log = s₁.log)
    (happlies : ApplyM.Applies (applyContext s.traits walk.finding sol) s₁.store (bodyExprs group)
      sol.obligations { store := s₂.store, log := s₂.log } done)
    (haccepts : Accepts config group s) : done.log.errorCount = s.log.errorCount := by
  obtain ⟨hcount, hopen⟩ := h.accepted haccepts
  have hlog' := happlies.quiet ⟨fun id _ => siteOpen_applyContext h.goes hopen h.le id, by
    rw [h.obligations]
    exact generic_obligations h.goes hopen h.le⟩
  rw [hlog', hlog]
  exact hcount

end Apply

/-! ## Final types -/

/-- Functions of different names are finished one after the other. -/
theorem ends_finishEach {f : α → CheckM Unit} {P : α → TypeId → Store → Prop} (name : α → Name)
    (xs : List α) (hco : s.store.Coherent) (hnodup : (xs.map name).Nodup)
    (stable : ∀ x ty st st', st ≤ st' → P x ty st → P x ty st')
    (bounded : ∀ x ty st, P x ty st → ty < st.size)
    (hf : ∀ x ∈ xs, ∀ s₁ : CheckState, DeclM.EndsWell s.store s₁.store →
      Ends (f x) s₁ fun _ s₂ => ∃ ty st, DeclM.EndsWell s₁.store st ∧ P x ty st ∧
        s₂ = { s₁ with
          store := st
          globals := s₁.globals.insert (name x) ⟨ty, true⟩
          functions := s₁.functions.insert (name x) ty }) :
    Ends (xs.forM f) s fun _ s' => DeclM.EndsWell s.store s'.store ∧ s'.log = s.log ∧
      s'.exprTypes = s.exprTypes ∧ Finishes (xs.map name) s s' ∧
      ∀ x ∈ xs, ∃ ty, s'.functions[name x]? = some ty ∧ P x ty s'.store := by
  induction xs generalizing s with
  | nil =>
    exact ends_pure ⟨⟨.refl _, hco⟩, rfl, rfl, ⟨rfl, fun _ _ => ⟨rfl, rfl⟩, by simp⟩, by simp⟩
  | cons x xs ih =>
    obtain ⟨hnotMem, hnodup⟩ := List.nodup_cons.mp hnodup
    refine (hf x List.mem_cons_self s ⟨.refl _, hco⟩).bind ?_
    rintro _ s₁ ⟨ty, st, hends, hP, rfl⟩
    refine (ih hends.2 hnodup fun y hy s₂ hends₂ => hf y (List.mem_cons_of_mem x hy) s₂
      ⟨hends.1.trans hends₂.1, hends₂.2⟩).mono ?_
    rintro _ s₂ ⟨hends₂, hlog, hexprTypes, hfin, hxs⟩
    have hx : s₂.globals[name x]? = some ⟨ty, true⟩ ∧ s₂.functions[name x]? = some ty := by
      obtain ⟨hglobal, hfunction⟩ := hfin.others (name x) hnotMem
      rw [hglobal, hfunction]
      simp
    refine ⟨⟨hends.1.trans hends₂.1, hends₂.2⟩, hlog, hexprTypes, ⟨hfin.traits, ?_, ?_⟩, ?_⟩
    · intro n hn
      rw [List.map_cons, List.mem_cons, not_or] at hn
      obtain ⟨hglobal, hfunction⟩ := hfin.others n hn.2
      rw [hglobal, hfunction]
      simp [Std.HashMap.getElem?_insert, Ne.symm hn.1]
    · rw [List.map_cons, List.forall_mem_cons]
      exact ⟨⟨ty, lt_size_of_le hends₂.1.le (bounded x ty st hP), hx⟩, hfin.finished⟩
    · exact List.forall_mem_cons.mpr ⟨⟨ty, hx.2, stable x ty _ _ hends₂.1.le hP⟩, hxs⟩

/-- A group that fails gets the error type and publishes nothing. -/
theorem ends_failGroup {config : CheckConfig} {s₁ : CheckState} (hwaits : s.Waits group)
    (hsame : s.OnlyTypes s₁) (hends : DeclM.EndsWell s.store s₁.store)
    (herrors : s.log.errorCount < s₁.log.errorCount)
    (hrefused : ¬ Accepts config group s) :
    Ends (failGroup (s.members group)) s₁ fun _ s' => Checks config group s s' := by
  have hnames : (s.members group).map (fun m => m.1.name) = group.map FunctionDecl.name := by
    conv_rhs => rw [← hwaits.map_members, List.map_map]
    rfl
  refine (ends_finishEach (P := fun _ ty _ => ty = TypeId.error) (fun m => m.1.name)
    (s.members group) hends.2 (hnames ▸ hwaits.nodup) (fun _ _ _ _ _ h => h)
    (fun _ _ _ h => h ▸ lt_size_of_prim .error) ?_).mono ?_
  · intro m _ s₂ hends₂
    exact ⟨TypeId.error, s₂.store, ⟨.refl _, hends₂.2⟩, rfl, rfl⟩
  · rintro _ s' ⟨hends', hlog, hexprTypes, hfin, herror⟩
    refine ⟨⟨hends.1.trans hends'.1, hends'.2⟩, hnames ▸ hfin.of_onlyTypes hsame, ?_,
      .failed ?_ (hexprTypes.trans hsame.exprTypes) (fun f hf => ?_) hrefused⟩
    · rw [hlog]
      exact herrors.le
    · rw [hlog]
      exact herrors
    · rw [← hwaits.map_members] at hf
      obtain ⟨m, hm, rfl⟩ := List.mem_map.mp hf
      obtain ⟨ty, hty, rfl⟩ := herror m hm
      exact hty

/-- A group without errors: its types are published, and its functions get the general forms of their
types. -/
theorem ends_publishGroup {solved : List TypeId} {applied : Applied} {s₁ : CheckState}
    (hwaits : s.Waits group) (hsame : s.OnlyTypes s₁) (hco : s₁.store.Coherent)
    (hlen : (s.members group).length = solved.length)
    (hsolved : ∀ ty ∈ solved, ty < s₁.store.size ∧ ∃ sig, s₁.store.signature? ty = some sig)
    (hretained : ∀ o ∈ applied.retained, o < s₁.store.size) :
    Ends (publishGroup (s.members group) solved applied) s₁ fun _ s' =>
      DeclM.EndsWell s₁.store s'.store ∧ Finishes (group.map FunctionDecl.name) s s' ∧
      s'.log = s₁.log ∧
      (∀ id : ExprId, s'.exprTypes[id]? = applied.exprTypes[id]?.or s.exprTypes[id]?) ∧
      ∀ p ∈ (s.members group).zip solved, ∃ ty, s'.functions[p.1.1.name]? = some ty ∧
        ty < s'.store.size ∧ (s'.store.tree ty).IsGeneralForm (s'.store.tree p.2)
          (solved.map s'.store.tree) (applied.retained.map s'.store.tree) := by
  have hnames : ((s.members group).zip solved).map (fun p => p.1.1.name) =
      group.map FunctionDecl.name := by
    have hfirst := List.map_fst_zip hlen.le
    conv_rhs => rw [← hwaits.map_members, ← hfirst, List.map_map, List.map_map]
    rfl
  let published := { s₁ with exprTypes := s₁.exprTypes.insertMany applied.exprTypes.toList }
  refine Ends.bind (Q := fun _ s₂ => s₂ = published) (ends_modify rfl) ?_
  rintro _ s₂ rfl
  -- the trees of types that are there already do not depend on the store
  have htrees : ∀ {st : Store}, s₁.store ≤ st → solved.map st.tree = solved.map s₁.store.tree ∧
      applied.retained.map st.tree = applied.retained.map s₁.store.tree := fun hle =>
    ⟨List.map_congr_left fun ty hty => tree_of_le hle (hsolved ty hty).1,
      List.map_congr_left fun o ho => tree_of_le hle (hretained o ho)⟩
  refine (ends_finishEach (s := published) (P := fun p ty st => ty < st.size ∧
    (st.tree ty).IsGeneralForm (s₁.store.tree p.2) (solved.map s₁.store.tree)
      (applied.retained.map s₁.store.tree)) (fun p => p.1.1.name) ((s.members group).zip solved)
    hco (hnames ▸ hwaits.nodup) ?_ (fun _ _ _ h => h.1) ?_).mono ?_
  · rintro p ty st st' hle ⟨hlt, hform⟩
    exact ⟨lt_size_of_le hle hlt, by rw [tree_of_le hle hlt]; exact hform⟩
  · rintro ⟨m, ty⟩ hp s₂ hends₂
    obtain ⟨hlt, sig, hsig⟩ := hsolved ty (List.of_mem_zip hp).2
    have hle := hends₂.1.le
    have hform := isGeneralForm_generalize (lt_size_of_le hle hlt)
      ((FindM.signature?_of_le hle hlt).trans hsig)
      (fun c hc => lt_size_of_le hle (hsolved c hc).1)
      fun o ho => lt_size_of_le hle (hretained o ho)
    rw [(htrees hle).1, (htrees hle).2, tree_of_le hle hlt] at hform
    obtain ⟨hle', hnom⟩ := builds_generalize ty
      (s₂.store.givensFor ty solved applied.retained) s₂.store
    exact ⟨_, _, ⟨.of_nominals hle' hnom, hends₂.2.of_nominals hle' hnom⟩, hform, rfl⟩
  · rintro _ s' ⟨hends, hlog, hexprTypes, hfin, hforms⟩
    refine ⟨hends, hnames ▸ ⟨hfin.traits.trans hsame.traits, fun name hname => ?_, hfin.finished⟩,
      hlog, fun id => ?_, fun p hp => ?_⟩
    · obtain ⟨hglobal, hfunction⟩ := hfin.others name hname
      exact ⟨hglobal.trans (by rw [← hsame.globals]), hfunction.trans (by rw [← hsame.functions])⟩
    · rw [hexprTypes, ← hsame.exprTypes]
      exact getElem?_insertMany_toList _ _ id
    · obtain ⟨ty, hty, hlt, hform⟩ := hforms p hp
      rw [(htrees hends.1.le).1, (htrees hends.1.le).2,
        tree_of_le hends.1.le (hsolved p.2 (List.of_mem_zip hp).2).1]
      exact ⟨ty, hty, hlt, hform⟩

/-! ## A group -/

theorem map_eq_map_of_forall₂ {α β γ : Type} {f : α → γ} {g : β → γ} {xs : List α} {ys : List β}
    (h : List.Forall₂ (fun x y => g y = f x) xs ys) : ys.map g = xs.map f := by
  induction h with
  | nil => rfl
  | cons heq _ ih => rw [List.map_cons, List.map_cons, heq, ih]

/-- The stages of checking a group, when no error is reported: the bodies are walked, what was found
is solved, and the solution is applied. -/
structure Stages (config : CheckConfig) (group : List FunctionDecl) (s : CheckState)
    (walk : FindState) (records : List (ExprId × TypeId)) (sol : Solution) (st : Store)
    (done : ApplyState) : Prop where
  goes : FindState.Goes (s.context.surroundings s.store) s.context ⟨s.store, {}, {}, s.log⟩ walk
    records
  finds : ∀ T, walk.store ≤ T → GroupFinds (s.context.surroundings s.store) T
    ⟨s.store.vars, [], [], []⟩ (s.members group) (walk.found T records)
  solves : SolvesInOrder config.maxUnifySteps []
    (walk.finding.constraints.toList.filterMap (Constraint.equation? walk.store))
    (sol.bindings.read st)
  walked_le : walk.store ≤ st
  solved_le : st ≤ done.store
  ready : done.Ready (applyContext s.traits walk.finding sol)
  only : ∀ id ty, done.applied.exprTypes[id]? = some ty →
    id ∈ bodyExprs group
  rewritten : ∀ id ∈ bodyExprs group,
    ApplyM.Rewritten (applyContext s.traits walk.finding sol) st id done
  settled : ∀ id ∈ bodyExprs group,
    ApplyM.SiteSettled (applyContext s.traits walk.finding sol) st id done

section Stages

variable {config : CheckConfig} {s' : CheckState} {walk : FindState}
  {records : List (ExprId × TypeId)} {sol : Solution} {st : Store} {done : ApplyState}

/-- Every expression of the bodies has its solved type on record. -/
theorem Stages.recorded (h : Stages config group s walk records sol st done)
    (hwaits : s.Waits group) {T : Store} (hT : done.store ≤ T) {id : ExprId}
    (hid : id ∈ bodyExprs group) :
    ∃ t ty, (id, t) ∈ (walk.found T records).records ∧ done.applied.exprTypes[id]? = some ty ∧
      ty < T.size ∧ T.tree ty = applyAll (sol.bindings.read st) t := by
  have hwalked : id ∈ records.map Prod.fst := by
    obtain ⟨new, hnew, hperm⟩ := (h.finds walk.store le_rfl).adds
    have hmem : id ∈ new.map Prod.fst := by
      rw [hperm.mem_iff, hwaits.bodyExprs_members]
      exact hid
    rw [← List.nil_append new, ← hnew] at hmem
    simpa [FindState.found] using hmem
  have hsome : ((enterAll {} records)[id]?).isSome = true := isSome_getElem?_enterAll (.inl hwalked)
  obtain ⟨ty, hty⟩ := Option.isSome_iff_exists.mp hsome
  have hrecord := (mem_of_getElem?_enterAll hty).resolve_right (by simp)
  have hrecorded : walk.finding.exprTypes[id]? = some ty := by
    rw [h.goes.exprTypes]
    exact hty
  obtain ⟨ty', hty', hlt, htree⟩ := h.rewritten id hid ty hrecorded
  refine ⟨T.tree ty, ty', List.mem_map_of_mem hrecord, hty', lt_size_of_le hT hlt, ?_⟩
  rw [tree_of_le hT hlt, htree, tree_of_le (h.solved_le.trans hT)
    (lt_size_of_le h.walked_le (h.goes.records _ hrecord))]
  rfl

/-- When no expression is a call twice, the obligations of every call are settled. -/
theorem Stages.site_settled (h : Stages config group s walk records sol st done) {T : Store}
    (hT : done.store ≤ T) (hnodup : ((walk.found T records).sites.map Prod.fst).Nodup)
    {c : ExprId × TypeTree} (hc : c ∈ (walk.found T records).sites)
    (hid : c.1 ∈ bodyExprs group) {sig : Signature TypeTree}
    (hsig : applyAll (sol.bindings.read st) c.2 = .mk (.function sig)) {o : TypeTree}
    (ho : o ∈ sig.givens) :
    ApplyState.Settled (applyContext s.traits walk.finding sol) st o done := by
  obtain ⟨site, hsite, rfl⟩ := List.mem_map.mp hc
  have hdistinct : (walk.finding.callSites.toList.map fun site => (site.expr, site)).Pairwise
      fun a b => (a.1 == b.1) = false := by
    change ((walk.finding.callSites.toList.map _).map Prod.fst).Nodup at hnodup
    rw [List.map_map, List.Nodup, List.pairwise_map] at hnodup
    rw [List.pairwise_map]
    exact hnodup.imp fun h => by simpa using h
  -- of two sites of one expression the table would keep the later one only
  have hlookup : (applyContext s.traits walk.finding sol).callSites[site.expr]? = some site :=
    Std.HashMap.getElem?_ofList_of_mem (beq_self_eq_true site.expr) hdistinct
      (List.mem_map_of_mem hsite)
  refine h.settled site.expr hid site hlookup sig ?_ o ho
  rw [← tree_of_le (h.solved_le.trans hT)
    (lt_size_of_le h.walked_le (h.goes.ready.sites site hsite).1)]
  exact hsig

/-- What goes through all stages and into the tables is published. -/
theorem Stages.publishes (h : Stages config group s walk records sol st done)
    {solved : List TypeId} (hwaits : s.Waits group) (htraits : s'.traits = s.traits)
    (herrors : s'.log.errorCount = s.log.errorCount) (hT : done.store ≤ s'.store)
    (hsolved : List.Forall₂ (fun m ty => ty < done.store.size ∧
      done.store.tree ty = applyAll (sol.bindings.read st) (st.tree m.2)) (s.members group) solved)
    (hexprTypes : ∀ id : ExprId,
      s'.exprTypes[id]? = done.applied.exprTypes[id]?.or s.exprTypes[id]?)
    (hgeneral : ∀ p ∈ (s.members group).zip solved, ∃ ty, s'.functions[p.1.1.name]? = some ty ∧
      ty < s'.store.size ∧ (s'.store.tree ty).IsGeneralForm (s'.store.tree p.2)
        (solved.map s'.store.tree) (done.applied.retained.map s'.store.tree)) :
    Publishes config group s s' (walk.found s'.store records) (sol.bindings.read st)
      (done.applied.retained.map s'.store.tree) := by
  have hsT := h.solved_le.trans hT
  have htrees : List.Forall₂ (fun m ty =>
      s'.store.tree ty = applyAll (sol.bindings.read st) (s'.store.tree m.2))
      (s.members group) solved := by
    refine forall₂_of_mem hsolved ?_
    rintro m hm ty ⟨hlt, htree⟩
    have hlt' := (hwaits.member hm).2.2.sound.1
    rw [tree_of_le hT hlt, htree,
      tree_of_le hsT (lt_size_of_le (h.goes.store.le.trans h.walked_le) hlt')]
  refine ⟨herrors, h.finds _ (h.walked_le.trans hsT), ?_, fun id hid => ?_, fun id hid => ?_,
    fun o ho => ?_, fun m hm => ?_, fun hnodup c hc hid sig hsig o ho => ?_⟩
  · show SolvesInOrder _ _ (walk.finding.constraints.toList.filterMap _) _
    rw [Constraint.equations_of_le (h.walked_le.trans hsT) h.goes.ready.constraints]
    exact h.solves
  · obtain ⟨t, ty, ht, hty, hlt, htree⟩ := h.recorded hwaits hT hid
    exact ⟨t, ty, ht, by rw [hexprTypes, hty]; rfl, hlt, htree⟩
  · have hnone : done.applied.exprTypes[id]? = none :=
      Option.eq_none_iff_forall_not_mem.mpr fun ty hty => hid (h.only id ty hty)
    rw [hexprTypes, hnone, Option.none_or]
  · obtain ⟨ty, hty, rfl⟩ := List.mem_map.mp ho
    exact ((h.ready.retained ty hty).of_le hT).2
  · have hmem := hm
    rw [← List.map_fst_zip htrees.length_eq.le] at hmem
    obtain ⟨p, hp, rfl⟩ := List.mem_map.mp hmem
    obtain ⟨ty, hty, hlt, hform⟩ := hgeneral p hp
    rw [(List.forall₂_iff_zip.mp htrees).2 hp, map_eq_map_of_forall₂ htrees] at hform
    exact ⟨ty, hty, hlt, hform⟩
  · obtain ⟨ty, hlt, rfl, hcases⟩ := h.site_settled hT hnodup hc hid hsig ho
    refine ⟨ty, lt_size_of_le hT hlt, tree_of_le hT hlt, ?_⟩
    rw [hasError_of_le hT hlt, isGeneric_of_le hT hlt, htraits, ← tree_of_le hT hlt]
    rcases hcases with herror | ⟨hgeneric, hmem⟩ | ⟨hconcrete, mid, hmid, hle, himpl⟩
    · exact .inl herror
    · exact .inr (.inl ⟨hgeneric, List.mem_map_of_mem hmem⟩)
    · exact .inr (.inr ⟨hconcrete, mid, h.goes.store.le.trans (h.walked_le.trans hmid),
        hle.trans hT, himpl⟩)

/-- A group goes through all stages if no error is on record at the end. -/
theorem Solved.stages {s₁ s₂ : CheckState} (h : Solved config group s walk records sol s₁)
    (hadv : s₁.Advances s₂)
    (happlies : ApplyM.Applies (applyContext s.traits walk.finding sol) s₁.store (bodyExprs group)
      sol.obligations { store := s₂.store, log := s₂.log } done)
    (hclean : done.log.errorCount ≤ s.log.errorCount) :
    Stages config group s walk records sol s₁.store done := by
  -- no count of errors went up on the way
  have hcounts : walk.log.errorCount = s.log.errorCount ∧ sol.failures = [] ∧
      done.log.errorCount = s₂.log.errorCount := by
    have h₁ := h.goes.errors
    have h₂ := h.errors
    have h₃ := hadv.errors
    have h₄ := happlies.goes.errors
    rw [← List.length_eq_zero_iff]
    dsimp only at *
    omega
  obtain ⟨hwalk, hfailures, hdone⟩ := hcounts
  exact
    { goes := h.goes
      finds := h.finds hwalk
      solves := h.solves hfailures
      walked_le := h.le
      solved_le := hadv.store.le.trans happlies.goes.le
      ready := happlies.ready
      only := fun id ty hty => (happlies.only id ty hty).resolve_right (by simp)
      rewritten := fun id hid => happlies.rewritten id (.inl hid)
      settled := (happlies.clean rfl hdone).2 }

end Stages

/-- Checking a group is all or nothing. -/
theorem ends_checkGroup (config : CheckConfig) (hs : s.Registered)
    (hcontext : s.context.Within s.store) (hwaits : s.Waits group) :
    Ends (checkGroup config group) s fun _ s' => Checks config group s s' := by
  have hmembers : ∀ m ∈ s.members group, FindM.IsMember s.store m := fun m hm => hwaits.isMember hm
  -- first the walk over the bodies, which may have found too little to go on
  refine ends_get_bind (ends_get_bind ((ends_findGroup hs hcontext hmembers).bind ?_))
  rintro finding s₁ ⟨walk, records, hwalked, rfl, rfl⟩
  split
  · next hincomplete =>
    have herrors := (hwalked.goes.incomplete hincomplete).resolve_left (by simp)
    exact ends_failGroup hwaits hwalked.same hwalked.ends herrors fun haccepts =>
      herrors.ne' (hwalked.walk_eq ▸ haccepts.1)
  -- then the equations, each failure of which is an error
  refine hwalked.ends_solveAll.bind fun sol s₂ hsolved => ends_get_bind ?_
  split
  · next herrors =>
    have herrors := DiagnosticLog.errorsSince_iff.mp herrors
    exact ends_failGroup hwaits hsolved.same hsolved.ends herrors fun haccepts =>
      herrors.ne' (hsolved.accepted haccepts).1
  -- the solution is applied to the members and to what was found of their bodies
  refine (ends_applyMembers hsolved.ends.2 hsolved.ordered.within fun m hm =>
    (hmembers m hm).of_le hsolved.ends.1.le).bind ?_
  rintro solved s₃ ⟨hlog₃, hadv₃, hmade⟩
  refine (hsolved.ends_applyGroup hwaits hadv₃).bind ?_
  rintro applied s₄ ⟨done, rfl, rfl, happlies⟩
  have hsame₄ : s.OnlyTypes { s₃ with store := done.store, log := done.log } :=
    (hsolved.same.trans hadv₃.toOnlyTypes).trans ⟨⟨rfl, rfl, rfl, happlies.goes.errors⟩, rfl⟩
  have hends₄ : DeclM.EndsWell s.store done.store :=
    ⟨(hsolved.ends.1.trans hadv₃.store).trans (.of_nominals happlies.goes.le happlies.goes.nominals),
      hadv₃.coherent.of_nominals happlies.goes.le happlies.goes.nominals⟩
  refine ends_get_bind ?_
  split
  · next herrors =>
    have herrors := DiagnosticLog.errorsSince_iff.mp herrors
    exact ends_failGroup hwaits hsame₄ hends₄ herrors fun haccepts =>
      herrors.ne' (hsolved.quiet hlog₃ happlies haccepts)
  next hclean =>
  -- no error since the group was begun, so its types are published
  have hclean := not_lt.mp (mt DiagnosticLog.errorsSince_iff.mpr hclean)
  have hmade₄ : List.Forall₂ (fun m ty => ty < done.store.size ∧
      (∃ sig, done.store.signature? ty = some sig) ∧
      done.store.tree ty = applyAll (sol.bindings.read s₂.store) (s₂.store.tree m.2))
      (s.members group) solved := by
    refine hmade.imp ?_
    rintro m ty ⟨hlt, ⟨sig, hsig⟩, htree⟩
    exact ⟨lt_size_of_le happlies.goes.le hlt,
      ⟨sig, (FindM.signature?_of_le happlies.goes.le hlt).trans hsig⟩,
      (tree_of_le happlies.goes.le hlt).trans htree⟩
  refine (ends_publishGroup hwaits hsame₄ hends₄.2 hmade₄.length_eq (fun ty hty => ?_)
    fun o ho => (happlies.ready.retained o ho).1).mono ?_
  · obtain ⟨m, -, hlt, hsig, -⟩ := exists_mem_of_forall₂ hmade₄ hty
    exact ⟨hlt, hsig⟩
  rintro _ s' ⟨hends', hfin, hlog, hexprTypes, hgeneral⟩
  have hstages := hsolved.stages hadv₃ happlies hclean
  have herrors : s'.log.errorCount = s.log.errorCount := by
    rw [hlog]
    exact hclean.antisymm hsame₄.errors
  exact ⟨⟨hends₄.1.trans hends'.1, hends'.2⟩, hfin, herrors.ge, .published (hstages.publishes hwaits
    hfin.traits herrors hends'.1.le (hmade₄.imp fun _ _ h => ⟨h.1, h.2.2⟩) hexprTypes hgeneral)⟩

end CheckM

end ConstraintTyping
