import ConstraintTyping.Proofs.Check.Registered
import ConstraintTyping.Proofs.Renaming.Turns

/-!
# What two checks come to

Two modules whose groups correspond have checked the same groups.  Then the turn of a group reported the
same on both sides, up to the words in which the variables of the group are named, and its functions
have the same types, as they are printed.
-/

namespace ConstraintTyping

open Store CheckM CheckState Renaming

/-! ## What is reported -/

/-- What was logged after an earlier log. -/
def DiagnosticLog.since (log earlier : DiagnosticLog) : List Diagnostic :=
  log.entries.toList.drop earlier.entries.size

/-- The code and the place of a diagnostic. -/
def Diagnostic.place (d : Diagnostic) : ErrorCode × Option Span := (d.code, d.primarySpan?)

theorem TypeFault.place_toDiagnostic (f : TypeFault) :
    f.toDiagnostic.place = (f.kind.code, some f.span) := rfl

theorem DiagnosticLog.entries_foldl_report (fs : List TypeFault) (log : DiagnosticLog) :
    (fs.foldl DiagnosticLog.report log).entries.toList =
      log.entries.toList ++ fs.map TypeFault.toDiagnostic := by
  induction fs generalizing log with
  | nil => simp
  | cons f fs ih =>
    have hentries : (log.report f).entries.toList = log.entries.toList ++ [f.toDiagnostic] :=
      Array.toList_push
    rw [List.foldl_cons, ih, hentries, List.append_assoc, List.singleton_append, List.map_cons]

theorem DiagnosticLog.since_foldl_report (fs : List TypeFault) (log : DiagnosticLog) :
    (fs.foldl DiagnosticLog.report log).since log = fs.map TypeFault.toDiagnostic := by
  rw [since, entries_foldl_report, ← Array.length_toList, List.drop_left]

/-- Logs with as many errors, of the same kinds and at the same places. -/
structure DiagnosticLog.SameReports (log log' : DiagnosticLog) : Prop where
  errorCount : log'.errorCount = log.errorCount
  places : log'.entries.toList.map Diagnostic.place = log.entries.toList.map Diagnostic.place

namespace Renaming.AlikeLogs

variable {R : Renaming} {logs : DiagnosticLog × DiagnosticLog} {log log' : DiagnosticLog}

theorem entries_left (h : R.AlikeLogs logs log log') :
    log.entries.toList = logs.1.entries.toList ++ log.since logs.1 := by
  obtain ⟨fs, fs', rfl, rfl, -⟩ := h
  rw [DiagnosticLog.entries_foldl_report, DiagnosticLog.since_foldl_report]

theorem entries_right (h : R.AlikeLogs logs log log') :
    log'.entries.toList = logs.2.entries.toList ++ log'.since logs.2 := by
  obtain ⟨fs, fs', rfl, rfl, -⟩ := h
  rw [DiagnosticLog.entries_foldl_report, DiagnosticLog.since_foldl_report]

/-- The same is reported, where the names of variables are the same. -/
theorem since_eq (h : R.AlikeLogs logs log log') (hR : R.Plain) :
    log'.since logs.2 = log.since logs.1 := by
  obtain ⟨fs, fs', rfl, rfl, hfs⟩ := h
  rw [DiagnosticLog.since_foldl_report, DiagnosticLog.since_foldl_report]
  induction hfs with
  | nil => rfl
  | cons hf _ ih => rw [List.map_cons, List.map_cons, ih, hf.eq hR]

/-- The same kinds of faults are reported at the same places. -/
theorem places_eq (h : R.AlikeLogs logs log log') :
    (log'.since logs.2).map Diagnostic.place = (log.since logs.1).map Diagnostic.place := by
  obtain ⟨fs, fs', rfl, rfl, hfs⟩ := h
  rw [DiagnosticLog.since_foldl_report, DiagnosticLog.since_foldl_report]
  induction hfs with
  | nil => rfl
  | cons hf _ ih =>
    simp only [List.map_cons, List.cons.injEq]
    exact ⟨by rw [TypeFault.place_toDiagnostic, TypeFault.place_toDiagnostic, hf.kind, hf.span], ih⟩

/-- Logs that had the same reports have the same reports. -/
theorem sameReports (h : R.AlikeLogs logs log log') (h₀ : logs.1.SameReports logs.2) :
    log.SameReports log' where
  errorCount := by
    obtain ⟨fs, fs', rfl, rfl, hfs⟩ := h
    rw [errorCount_foldl_report, errorCount_foldl_report, h₀.errorCount, hfs.length_eq]
  places := by
    rw [h.entries_left, h.entries_right, List.map_append, List.map_append, h₀.places, h.places_eq]

end Renaming.AlikeLogs

/-! ## A module beside itself -/

/-- The signatures of a module beside themselves. -/
def SignaturePair.self (base : Store) (log : DiagnosticLog) : SignaturePair where
  R := refl
  base := base
  of := fun _ => refl
  names := Set.univ
  logs := (log, log)
  agrees := fun _ _ h => ⟨h, rfl⟩

namespace Module

variable {m : Module} {config : CheckConfig} {log : DiagnosticLog} {G : List Nat}
  {pre post : List (List Nat)}

theorem branches_of_goesOn {s s₁ s₂ : CheckState} (h : s.Registered) (h₁ : s.GoesOn s₁)
    (h₂ : s.GoesOn s₂) : Branches s.store (s₁.store, s₂.store) :=
  ⟨h.coherent, h.complete, h₁.store, h₂.store⟩

variable (m config log)

/-- A module corresponds to itself. -/
theorem corresponds_self :
    (SignaturePair.self (m.registered config log).store log).Corresponds m m config log id where
  branches := branches_of_goesOn (m.collected_registered config log).registered
    (m.goesOn_collected config log m.functions) (m.goesOn_collected config log m.functions)
  traits := rfl
  schemes := by
    rw [prepared_eq, (m.goesOn_collected config log m.functions).traits]
    exact m.hasSchemes_registered config log
  suits _ := suits_refl _
  globals name _ := by
    have hglobal := @(m.collected_prepared config log).global name
    generalize (m.prepared config log).globals[name]? = o at hglobal ⊢
    cases o with
    | none => exact .none
    | some g =>
      obtain ⟨f, -, -, hsig⟩ := hglobal rfl
      exact .some ⟨rfl, alike_refl le_rfl le_rfl hsig.sound.1⟩
  turn G hG := ⟨hG, default, List.forall₂_same.mpr fun f hf => ⟨rfl, trivial, fun _ _ => trivial,
    id, f.renameVars_id.symm, fun _ _ => ⟨trivial, rfl⟩⟩⟩

/-- What is reported while a group has its turn. -/
def turnReports (G : List Nat) : List Diagnostic :=
  (m.after config log G).log.since (m.before config log G).log

variable {m}

theorem entries_after (hG : G ∈ m.bodyGroups) : (m.after config log G).log.entries.toList =
    (m.before config log G).log.entries.toList ++ m.turnReports config log G := by
  obtain ⟨R, -, hlog⟩ := ((m.corresponds_self config log).turnsAlike hG).log
  exact hlog.entries_left

/-- The log after the turns of some groups: what was logged before, and what each turn reported. -/
theorem entries_reached (h : m.bodyGroups = pre ++ post) :
    (m.reached config log pre).log.entries.toList =
      (m.prepared config log).log.entries.toList ++ pre.flatMap (m.turnReports config log) := by
  induction pre using List.reverseRecOn generalizing post with
  | nil => exact (List.append_nil _).symm
  | append_singleton pre G ih =>
    have hsplit : m.bodyGroups = pre ++ G :: post := by rw [h, List.append_assoc, List.singleton_append]
    rw [← after_of_split config log hsplit, entries_after config log (by rw [hsplit]; simp),
      before_of_split config log hsplit, ih hsplit, List.flatMap_append, List.flatMap_singleton,
      List.append_assoc]

/-- A check that went through some groups, and no further. -/
structure WentThrough (m : Module) (config : CheckConfig) (log : DiagnosticLog)
    (pre : List (List Nat)) : Prop where
  groups : ∃ post, m.bodyGroups = pre ++ post
  checked : m.checked config log = m.reached config log pre

/-- Without an error limit a check goes through all groups. -/
theorem wentThrough_of_no_limit (h : config.errorLimit = 0) :
    m.WentThrough config log m.bodyGroups where
  groups := ⟨[], (List.append_nil _).symm⟩
  checked := checkGroups_eq_runGroups fun n => by simp [CheckConfig.limitReached, h]

end Module

/-! ## Final types -/

/-- The final type of a function, as it is printed. -/
def TypedModule.functionText? (t : TypedModule) (name : Name) : Option String :=
  (t.functionType? name).map t.store.print

namespace Module

variable {m m' : Module} {config : CheckConfig} {log : DiagnosticLog} {pre pre' : List (List Nat)}
  {name : Name} {f : FunctionDecl} {G : List Nat}

namespace WentThrough

variable (h : m.WentThrough config log pre)

include h

theorem ready : (m.checked config log).Ready [] := by
  obtain ⟨post, hsplit⟩ := h.groups
  rw [h.checked]
  exact (runs_reached config log hsplit).ready

theorem store_le : (m.reached config log pre).store ≤ (m.check config log).store := by
  rw [← h.checked]
  exact (m.store_check config log h.ready).1.le

/-- The types on record are those of the finished functions. -/
theorem functionText?_eq : (m.check config log).functionText? name =
    (((m.reached config log pre).globals[name]?).filter (·.finished)).map fun g =>
      (m.check config log).store.print g.ty := by
  rw [TypedModule.functionText?, TypedModule.functionType?, (m.shows_check config log).functions,
    h.ready.functions, h.checked, Option.map_map]
  rfl

/-- What no group defines stays as its signature says. -/
theorem globals_of_no_group (hname : ∀ G ∈ m.bodyGroups, ∀ f ∈ m.members G, f.name ≠ name) :
    (m.reached config log pre).globals[name]? = (m.prepared config log).globals[name]? := by
  obtain ⟨post, hsplit⟩ := h.groups
  exact globals_reached_of_not_mem config log hsplit fun G hG =>
    hname G (by rw [hsplit]; exact List.mem_append_left _ hG)

/-- A function whose group did not have its turn has no final type. -/
theorem functionText?_of_not_mem (hG : G ∈ m.bodyGroups) (hpre : G ∉ pre) (hf : f ∈ m.members G) :
    (m.check config log).functionText? f.name = none := by
  obtain ⟨post, hsplit⟩ := h.groups
  obtain ⟨ty, hty, -⟩ := prepared_of_mem_members config log hG hf
  have hothers : ∀ H ∈ pre, ∀ g ∈ m.members H, g.name ≠ f.name := fun H hH g hg hname =>
    hpre (eq_of_name_eq (by rw [hsplit]; exact List.mem_append_left _ hH) hg hG hf hname ▸ hH)
  have hglobal := globals_reached_of_not_mem config log hsplit hothers
  rw [h.functionText?_eq, hglobal, hty]
  rfl

theorem log_eq : (m.check config log).log = (m.reached config log pre).log := by
  rw [← h.checked, check_eq]
  exact (ends_materializeExprTypes_onlyTypes _).2

end WentThrough

/-- Functions that are finished on both sides or on none, whose types are printed in the same way. -/
structure PrintsAlike (st st' : Store) (g g' : GlobalFn) : Prop where
  finished : g'.finished = g.finished
  print_eq : g.finished = true → st'.print g'.ty = st.print g.ty

theorem PrintsAlike.map_print {st st' : Store} {o o' : Option GlobalFn}
    (h : Option.Rel (PrintsAlike st st') o o') :
    (o'.filter (·.finished)).map (fun g => st'.print g.ty) =
      (o.filter (·.finished)).map fun g => st.print g.ty := by
  cases h with
  | none => rfl
  | @some g g' hg =>
    rw [Option.filter_some, Option.filter_some, hg.finished]
    split
    · next hfinished => exact congrArg some (hg.print_eq hfinished)
    · rfl

theorem PrintsAlike.of_final {st st' st₁ st₁' : Store} {g g' : GlobalFn}
    (h : SideBySide.AlikeFinal (st, st') g g') (hle : st ≤ st₁) (hle' : st' ≤ st₁') :
    PrintsAlike st₁ st₁' g g' where
  finished := h.finished
  print_eq hfinished := by
    have hboth : ((st, st') : Stores) ≤ (st₁, st₁') := ⟨hle, hle'⟩
    exact ((h.same hfinished).of_le hboth).alike.print_eq plain_refl

theorem PrintsAlike.of_provisional {P : SignaturePair} {st st' st₁ st₁' : Store} {g g' : GlobalFn}
    (h : P.AlikeProvisional name (st, st') g g') (hplain : (P.of name).Plain) (hle : st ≤ st₁)
    (hle' : st' ≤ st₁') : PrintsAlike st₁ st₁' g g' where
  finished := h.finished
  print_eq _ := by
    have hboth : ((st, st') : Stores) ≤ (st₁, st₁') := ⟨hle, hle'⟩
    exact (h.alike.of_le hboth).print_eq hplain

theorem functionText?_congr (h : m.WentThrough config log pre) (h' : m'.WentThrough config log pre')
    (hrel : Option.Rel (PrintsAlike (m.check config log).store (m'.check config log).store)
      (m.reached config log pre).globals[name]? (m'.reached config log pre').globals[name]?) :
    (m'.check config log).functionText? name = (m.check config log).functionText? name := by
  rw [h.functionText?_eq, h'.functionText?_eq]
  exact PrintsAlike.map_print hrel

end Module

namespace SignaturePair.Corresponds

variable {P : SignaturePair} {m m' : Module} {config : CheckConfig} {log : DiagnosticLog}
  {turn : List Nat → List Nat} {pre pre' : List (List Nat)} {G : List Nat} {name : Name}

variable (h : P.Corresponds m m' config log turn) (hpre : m.WentThrough config log pre)
  (hpre' : m'.WentThrough config log pre')

include h hpre hpre'

/-- The functions of a group have the same final types, if it had its turn on both sides or on none. -/
theorem functionText?_of_mem (hG : G ∈ m.bodyGroups) (hturn : G ∈ pre ↔ turn G ∈ pre')
    {f : FunctionDecl} (hf : f ∈ m.members G) :
    (m'.check config log).functionText? f.name = (m.check config log).functionText? f.name := by
  obtain ⟨-, f', hf', hname, -⟩ := h.exists_counterpart hG hf
  by_cases hmem : G ∈ pre
  · obtain ⟨post, hsplit⟩ := hpre.groups
    obtain ⟨post', hsplit'⟩ := hpre'.groups
    obtain ⟨hleft, hle⟩ := Module.globals_reached_of_mem config log hsplit hmem hf
    obtain ⟨hright, hle'⟩ :=
      Module.globals_reached_of_mem config log hsplit' (hturn.mp hmem) hf'
    rw [hname] at hright
    refine Module.functionText?_congr hpre hpre' ?_
    rw [hleft, hright]
    exact rel_option_mono ((h.turnsAlike hG).final f hf) fun g g' hg =>
      .of_final hg (le_trans hle hpre.store_le) (le_trans hle' hpre'.store_le)
  · rw [hpre.functionText?_of_not_mem hG hmem hf, ← hname,
      hpre'.functionText?_of_not_mem (h.mem_turn hG) (fun hm => hmem (hturn.mpr hm)) hf']

/-- A function without a body has the same final type, if its signature keeps its names. -/
theorem functionText?_of_no_group (hname : name ∈ P.names) (hplain : (P.of name).Plain)
    (hnone : ∀ G ∈ m.bodyGroups, ∀ f ∈ m.members G, f.name ≠ name)
    (hnone' : ∀ G ∈ m'.bodyGroups, ∀ f ∈ m'.members G, f.name ≠ name) :
    (m'.check config log).functionText? name = (m.check config log).functionText? name := by
  refine Module.functionText?_congr hpre hpre' ?_
  obtain ⟨post, hsplit⟩ := hpre.groups
  obtain ⟨post', hsplit'⟩ := hpre'.groups
  rw [hpre.globals_of_no_group hnone, hpre'.globals_of_no_group hnone']
  have hle := (Module.runs_reached config log hsplit).store.1.le
  have hle' := (Module.runs_reached config log hsplit').store.1.le
  exact rel_option_mono (h.globals name hname) fun g g' hg =>
    .of_provisional hg hplain (le_trans hle hpre.store_le) (le_trans hle' hpre'.store_le)

end SignaturePair.Corresponds

/-! ## The same groups -/

namespace SignaturePair.Corresponds

variable {P : SignaturePair} {m m' : Module} {config : CheckConfig} {log : DiagnosticLog}
  {pre post : List (List Nat)}

variable (h : P.Corresponds m m' config log id) (hgroups : m'.bodyGroups = m.bodyGroups)
  (hprepared : (m.prepared config log).log.SameReports (m'.prepared config log).log)

include h hgroups hprepared

/-- The turns of the same groups report the same kinds of faults at the same places. -/
theorem sameReports_reached (hsplit : m.bodyGroups = pre ++ post) :
    (m.reached config log pre).log.SameReports (m'.reached config log pre).log := by
  induction pre using List.reverseRecOn generalizing post with
  | nil => exact hprepared
  | append_singleton pre G ih =>
    rw [List.append_assoc, List.singleton_append] at hsplit
    obtain ⟨R, -, hlog⟩ := (h.turnsAlike (G := G) (by rw [hsplit]; simp)).log
    rw [← Module.after_of_split config log hsplit,
      ← Module.after_of_split config log (hgroups.trans hsplit)]
    refine hlog.sameReports ?_
    rw [Module.before_of_split config log hsplit,
      id, Module.before_of_split config log (hgroups.trans hsplit)]
    exact ih hsplit

/-- An error limit ends both checks after the same group. -/
theorem exists_wentThrough :
    ∃ pre, m.WentThrough config log pre ∧ m'.WentThrough config log pre := by
  -- the limit is looked up after every group, where both sides have reported as many errors
  suffices hrest : ∀ post pre, m.bodyGroups = pre ++ post → ∃ pre', (∃ post', m.bodyGroups = pre' ++ post') ∧
      (checkGroups config (post.map m.members) (m.reached config log pre)).2 =
        m.reached config log pre' ∧
      (checkGroups config (post.map m'.members) (m'.reached config log pre)).2 =
        m'.reached config log pre' by
    obtain ⟨pre, hpre, hleft, hright⟩ := hrest m.bodyGroups [] rfl
    refine ⟨pre, ⟨hpre, hleft⟩, by rw [hgroups]; exact hpre, ?_⟩
    rw [← hgroups] at hright
    exact hright
  intro post
  induction post with
  | nil => exact fun pre hsplit => ⟨pre, ⟨[], hsplit⟩, rfl, rfl⟩
  | cons G post ih =>
    intro pre hsplit
    have hsplit' : m.bodyGroups = (pre ++ [G]) ++ post := by
      rw [hsplit, List.append_assoc, List.singleton_append]
    have hcount := (h.sameReports_reached hgroups hprepared hsplit').errorCount
    rw [Module.reached_append_singleton, Module.reached_append_singleton] at hcount
    rw [List.map_cons, List.map_cons, checkGroups_cons, checkGroups_cons, hcount,
      ← Module.reached_append_singleton, ← Module.reached_append_singleton]
    split
    · exact ⟨pre ++ [G], ⟨post, hsplit'⟩, rfl, rfl⟩
    · exact ih (pre ++ [G]) hsplit'

end SignaturePair.Corresponds

end ConstraintTyping
