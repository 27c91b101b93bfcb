import ConstraintTyping.Proofs.Check.Bodies
import ConstraintTyping.Proofs.Renaming.Applying
import ConstraintTyping.Proofs.Renaming.Bodies
import ConstraintTyping.Proofs.Renaming.Generalizing

/-!
# Groups side by side

A group of functions is checked, and the same group with other names for its type variables, in
states that hold types which are alike for everything that the bodies refer to.  The walks over the
bodies, the solving of what they ask for and the application of what was solved go in step.  So both
checks report faults that are alike, or none, and the functions get the same types in the end: the
error type, or general forms of types that are alike.
-/

namespace ConstraintTyping

open Store StoreM CheckM CheckState

namespace Renaming

variable {R : Renaming} {w w' : Stores} {logs : DiagnosticLog × DiagnosticLog}
  {log log' : DiagnosticLog}

theorem errorCount_foldl_report (fs : List TypeFault) (log : DiagnosticLog) :
    (fs.foldl DiagnosticLog.report log).errorCount = log.errorCount + fs.length := by
  induction fs generalizing log with
  | nil => rfl
  | cons f fs ih =>
    rw [List.foldl_cons, ih, List.length_cons, Nat.add_comm fs.length, ← Nat.add_assoc]
    rfl

/-- Errors appeared on both sides or on none. -/
theorem AlikeLogs.errorsSince_eq (h : R.AlikeLogs logs log log') :
    log'.errorsSince logs.2.errorCount = log.errorsSince logs.1.errorCount := by
  obtain ⟨fs, fs', rfl, rfl, hfs⟩ := h
  unfold DiagnosticLog.errorsSince
  rw [errorCount_foldl_report, errorCount_foldl_report, hfs.length_eq, Bool.eq_iff_iff,
    decide_eq_true_iff, decide_eq_true_iff]
  omega

/-- The error type is the same everywhere. -/
theorem same_error (w : Stores) : Same w TypeId.error TypeId.error where
  alike := refl.alike_prim w .error
  not_var := by
    rw [Store.isVar, show w.1.shape TypeId.error = .prim .error from shape_prim _]
    rfl
  not_qualified := by
    rw [show w.1.shape TypeId.error = .prim .error from shape_prim _]
    rfl

end Renaming

namespace SideBySide

open Renaming

variable (J : SideBySide) {w w' : Stores} {α β γ δ : Type}

/-- A function of the group on both sides: finished with the same type, or not finished. -/
structure AlikeFinal (w : Stores) (g g' : GlobalFn) : Prop where
  finished : g'.finished = g.finished
  same : g.finished = true → Same w g.ty g'.ty

/-- The states of two checks in step, while the functions `names` are checked. -/
structure InCheck (names : Set Name) (w : Stores) (s s' : CheckState) : Prop where
  stores : J.R.InStepFrom J.base w s.store s'.store
  traits : s'.traits = s.traits
  impls : ∀ e ∈ s.traits.impls.toList, Same w e.ty e.ty
  globals : ∀ name ∈ names, Option.Rel (AlikeFinal w) s.globals[name]? s'.globals[name]?
  log : J.R.AlikeLogs J.logs s.log s'.log

/-- Two checks go in step, and their results are related. -/
abbrev Checks (names : Set Name) (x : CheckM α) (y : CheckM β) (w : Stores)
    (Q : Stores → α → β → Prop) : Prop :=
  Coupled (J.InCheck names) x y w Q

variable {J} {names : Set Name}

theorem AlikeFinal.of_le {g g' : GlobalFn} (h : AlikeFinal w g g') (hle : w ≤ w') :
    AlikeFinal w' g g' :=
  ⟨h.finished, fun hfin => (h.same hfin).of_le hle⟩

theorem InCheck.withStore {s s' : CheckState} {st st' : Store} (h : J.InCheck names w s s')
    (hle : w ≤ w') (hst : J.R.InStepFrom J.base w' st st') :
    J.InCheck names w' { s with store := st } { s' with store := st' } where
  stores := hst
  traits := h.traits
  impls e he := (h.impls e he).of_le hle
  globals name hname := rel_option_mono (h.globals name hname) fun _ _ hg => hg.of_le hle
  log := h.log

theorem InCheck.withLog {s s' : CheckState} {log log' : DiagnosticLog} (h : J.InCheck names w s s')
    (hlog : J.R.AlikeLogs J.logs log log') :
    J.InCheck names w { s with log } { s' with log := log' } :=
  ⟨h.stores, h.traits, h.impls, h.globals, hlog⟩

/-! ## Steps of a check -/

section Steps

theorem checks_build {x : StoreM α} {y : StoreM β} {Q : Stores → α → β → Prop}
    (h : J.R.CouplesFrom J.base x y w Q) : J.Checks names (CheckM.build x) (CheckM.build y) w Q := by
  intro s s' hs
  obtain ⟨w', hle, hst, hQ⟩ := h _ _ hs.stores
  exact ⟨w', hle, hs.withStore hle hst, hQ⟩

theorem checks_report {f f' : TypeFault} (h : J.R.AlikeFault f f') :
    J.Checks names (report f) (report f') w fun _ _ _ => True :=
  coupled_modify fun _ _ hs => hs.withLog (hs.log.report h)

/-- A function of the group is finished with the same type on both sides. -/
theorem checks_finishFunction {ty ty' : TypeId} (name : Name) (h : Same w ty ty') :
    J.Checks names (finishFunction name ty) (finishFunction name ty') w fun _ _ _ => True := by
  refine coupled_modify fun s s' hs =>
    ⟨hs.stores, hs.traits, hs.impls, fun name' hname' => ?_, hs.log⟩
  dsimp only
  rw [Std.HashMap.getElem?_insert, Std.HashMap.getElem?_insert]
  split
  · exact .some ⟨rfl, fun _ => h⟩
  · exact hs.globals name' hname'

theorem checks_solveAll (config : CheckConfig) {cs cs' : List Constraint}
    (h : List.Forall₂ (J.R.AlikeConstraint w) cs cs') :
    J.Checks names (solveAll config cs) (solveAll config cs') w J.R.AlikeSolution := by
  unfold solveAll
  refine (checks_build ((couples_solve config.maxUnifySteps h).from (builds_solve _ _)
    (builds_solve _ _))).bind fun w₁ sol sol' _ hsol => coupled_get_bind fun s s' hs => ?_
  dsimp only
  rw [← hs.stores.left, ← hs.stores.right]
  refine Coupled.bind (coupled_forM (r := fun _ => J.R.AlikeUnsolved w₁) (fun _ _ _ _ _ h => h) ?_
    hsol.failures) fun w₂ _ _ hle _ => coupled_pure (hsol.of_le hle)
  intro w' f f' _ hf
  exact checks_report ⟨(hf.explain_code config.useColor).1, (hf.explain_code config.useColor).2,
    fun hR => hf.explain_eq hR config.useColor⟩

/-- The expressions of renamed members have the same identifiers. -/
theorem exprIds_members {members members' : List (FunctionDecl × TypeId)}
    (hmembers : List.Forall₂ (AlikeMember J w) members members') :
    (members'.flatMap fun (f, _) => f.subexprs.map Expr.id) =
      members.flatMap fun (f, _) => f.subexprs.map Expr.id := by
  induction hmembers with
  | nil => rfl
  | @cons m m' _ _ hm _ ih =>
    obtain ⟨⟨ρ, -, heq⟩, -⟩ := hm
    rw [List.flatMap_cons, List.flatMap_cons, ih]
    dsimp only
    rw [heq, FunctionDecl.exprIds_renameVars]

theorem checks_applyGroup {members members' : List (FunctionDecl × TypeId)} {found found' : Finding}
    {sol sol' : Solution} (hmembers : List.Forall₂ (AlikeMember J w) members members')
    (hfound : AlikeFinding J.R w found found') (hsol : J.R.AlikeSolution w sol sol') :
    J.Checks names (applyGroup members found sol) (applyGroup members' found' sol') w
      fun w' a a' => J.R.AllAlike w' a.retained a'.retained := by
  intro s s' hs
  unfold applyGroup
  dsimp only
  rw [exprIds_members hmembers]
  obtain ⟨w', hle, c, c', hin⟩ := inApply_runOn _ hs.traits hs.impls hfound hsol hs.stores hs.log
  exact ⟨w', hle, (hs.withStore hle hin.stores).withLog hin.log, hin.retained⟩

/-- The bodies of a group are walked in step from states with the walks' contexts. -/
theorem inCheck_findGroup {members members' : List (FunctionDecl × TypeId)} {s s' : CheckState}
    (hs : J.InCheck names w s s') (hcontext : J.context = s.context)
    (hcontext' : J.context' = s'.context) (hsees : J.Sees w)
    (hmembers : List.Forall₂ (AlikeMember J w) members members') : ∃ w', w ≤ w' ∧
      J.InCheck names w' (findGroup members s).2 (findGroup members' s').2 ∧
      AlikeFinding J.R w' (findGroup members s).1 (findGroup members' s').1 := by
  obtain ⟨w', hle, hin, -⟩ := walks_findGroup hmembers { store := s.store, log := s.log }
    { store := s'.store, log := s'.log } ⟨hs.stores, hsees, .cons .nil .nil,
      ⟨.nil, fun id => by simp [Option.rel_none_none], .nil, rfl⟩, hs.log⟩
  rw [hcontext, hcontext'] at hin
  exact ⟨w', hle, (hs.withStore hle hin.stores).withLog hin.log, hin.finding⟩

theorem checks_failGroup {members members' : List (FunctionDecl × TypeId)}
    (hmembers : List.Forall₂ (AlikeMember J w) members members') :
    J.Checks names (failGroup members) (failGroup members') w fun _ _ _ => True := by
  refine coupled_forM (stable_alikeMember J) ?_ hmembers
  rintro w' ⟨f, ty⟩ ⟨_, ty'⟩ - ⟨⟨ρ, -, rfl⟩, -⟩
  exact checks_finishFunction f.name (same_error w')

/-- The general forms of the members' types are published on both sides. -/
theorem checks_publishGroup {members members' : List (FunctionDecl × TypeId)}
    {solved solved' : List TypeId} {applied applied' : Applied}
    (hmembers : List.Forall₂ (AlikeMember J w) members members')
    (hsolved : List.Forall₂ (J.R.AlikeFunction w) solved solved')
    (hretained : J.R.AllAlike w applied.retained applied'.retained) :
    J.Checks names (publishGroup members solved applied) (publishGroup members' solved' applied') w
      fun _ _ _ => True := by
  unfold publishGroup
  refine Coupled.bind (Q := fun _ _ _ => True) (coupled_modify fun _ _ hs =>
    ⟨hs.stores, hs.traits, hs.impls, hs.globals, hs.log⟩) fun w₁ _ _ hle₁ _ => ?_
  refine coupled_forM (r := fun w (p q : (FunctionDecl × TypeId) × TypeId) =>
    AlikeMember J w p.1 q.1 ∧ J.R.AlikeFunction w p.2 q.2)
    (fun _ _ _ _ hle h => ⟨stable_alikeMember J hle h.1, h.2.of_le hle⟩) ?_
    (rel_zip ((stable_alikeMember J).forall₂ hle₁ hmembers)
      (J.R.stable_alikeFunction.forall₂ hle₁ hsolved))
  rintro w' ⟨⟨f, t⟩, ty⟩ ⟨⟨_, t'⟩, ty'⟩ hle ⟨⟨⟨ρ, -, rfl⟩, -⟩, hty⟩
  refine coupled_get_bind fun s s' hs => ?_
  have hle₂ := le_trans hle₁ hle
  have hgivens := hty.alike.givensFor
    (AllAlike.of_le (hsolved.imp fun _ _ h => h.alike) hle₂) (AllAlike.of_le hretained hle₂)
  dsimp only
  rw [← hs.stores.left, ← hs.stores.right]
  refine (checks_build ((couples_generalize hty hgivens).from (builds_generalize _ _)
    (builds_generalize _ _))).bind fun w₂ g g' _ hg => ?_
  exact checks_finishFunction f.name hg

end Steps

/-! ## A group -/

/-- What is done with a group once its bodies are walked. -/
def settleGroup (config : CheckConfig) (members : List (FunctionDecl × TypeId)) (checkpoint : Nat)
    (finding : Finding) : CheckM Unit := do
  if finding.incomplete then
    failGroup members
  else
    let solution ← solveAll config finding.constraints.toList
    if (← get).log.errorsSince checkpoint then
      failGroup members
    else
      let solved ← members.mapM fun m => CheckM.build (solution.bindings.apply m.2)
      let applied ← applyGroup members finding solution
      if (← get).log.errorsSince checkpoint then
        failGroup members
      else
        publishGroup members solved applied

theorem checkGroup_eq (config : CheckConfig) (group : List FunctionDecl) (s : CheckState) :
    checkGroup config group s =
      settleGroup config (s.members group) s.log.errorCount (findGroup (s.members group) s).1
        (findGroup (s.members group) s).2 :=
  rfl

theorem checks_settleGroup (config : CheckConfig) {members members' : List (FunctionDecl × TypeId)}
    {found found' : Finding} (hfound : AlikeFinding J.R w found found')
    (hmembers : List.Forall₂ (AlikeMember J w) members members')
    (hfunctions : List.Forall₂ (fun m m' => J.R.AlikeFunction w m.2 m'.2) members members') :
    J.Checks names (settleGroup config members J.logs.1.errorCount found)
      (settleGroup config members' J.logs.2.errorCount found') w fun _ _ _ => True := by
  unfold settleGroup
  rw [hfound.incomplete]
  split
  · exact checks_failGroup hmembers
  refine (checks_solveAll config hfound.constraints).bind fun w₁ sol sol' hle₁ hsol => ?_
  have hmembers₁ := (stable_alikeMember J).forall₂ hle₁ hmembers
  -- errors are counted from where the group began, and both sides have reported as many
  refine coupled_get_bind fun s s' hs => ?_
  rw [hs.log.errorsSince_eq]
  split
  · exact checks_failGroup hmembers₁
  refine Coupled.bind (coupled_mapM
    (r := fun w (m m' : FunctionDecl × TypeId) => J.R.AlikeFunction w m.2 m'.2)
    (fun _ _ _ _ hle h => h.of_le hle) J.R.stable_alikeFunction (fun w' m m' hle hm => ?_)
    (hfunctions.imp fun _ _ h => h.of_le hle₁)) fun w₂ solved solved' hle₂ ⟨_, hsolved⟩ => ?_
  · exact checks_build ((couples_apply_function (J.R.stable_alikePairs hle hsol.bindings) hm).from
      (builds_apply _ _) (builds_apply _ _))
  have hmembers₂ := (stable_alikeMember J).forall₂ hle₂ hmembers₁
  refine (checks_applyGroup hmembers₂ (hfound.of_le (le_trans hle₁ hle₂)) (hsol.of_le hle₂)).bind
    fun w₃ applied applied' hle₃ hretained => ?_
  have hmembers₃ := (stable_alikeMember J).forall₂ hle₃ hmembers₂
  refine coupled_get_bind fun s s' hs => ?_
  rw [hs.log.errorsSince_eq]
  split
  · exact checks_failGroup hmembers₃
  · exact checks_publishGroup hmembers₃ (J.R.stable_alikeFunction.forall₂ hle₃ hsolved) hretained

/-- A member of a group beside the renamed one, with provisional function types that are alike. -/
structure AlikeWaiting (J : SideBySide) (w : Stores) (m m' : FunctionDecl × TypeId) : Prop where
  member : AlikeMember J w m m'
  signature : ∃ sig, w.1.signature? m.2 = some sig

/-- A group, and the same group with other names for its type variables, are checked in step. -/
theorem inCheck_checkGroup (config : CheckConfig) {group group' : List FunctionDecl}
    {s s' : CheckState} (hs : J.InCheck names w s s') (hcontext : J.context = s.context)
    (hcontext' : J.context' = s'.context) (hlogs : J.logs = (s.log, s'.log)) (hsees : J.Sees w)
    (hmembers : List.Forall₂ (AlikeWaiting J w) (s.members group) (s'.members group')) :
    ∃ w', w ≤ w' ∧
      J.InCheck names w' (checkGroup config group s).2 (checkGroup config group' s').2 := by
  have hall := hmembers.imp fun _ _ h => h.member
  obtain ⟨w₁, hle₁, hs₁, hfound⟩ := inCheck_findGroup hs hcontext hcontext' hsees hall
  have hall₁ := (stable_alikeMember J).forall₂ hle₁ hall
  have hfunctions : List.Forall₂ (fun m m' : FunctionDecl × TypeId => J.R.AlikeFunction w₁ m.2 m'.2)
      (s.members group) (s'.members group') :=
    hmembers.imp fun _ _ h => AlikeFunction.of_le ⟨h.member.2, h.signature⟩ hle₁
  obtain ⟨w', hle, hend, -⟩ := checks_settleGroup config hfound hall₁ hfunctions _ _ hs₁
  rw [hlogs, ← checkGroup_eq, ← checkGroup_eq] at hend
  exact ⟨w', le_trans hle₁ hle, hend⟩

end SideBySide

end ConstraintTyping
