import ConstraintTyping.Check.TypedModule
import ConstraintTyping.Proofs.Check.Bodies
import ConstraintTyping.Proofs.Check.References
import ConstraintTyping.Proofs.Types.Materialize

/-!
# Checking groups in order

Once types, traits, implementations and signatures are there, the groups of a module are checked one
after the other, callees before callers.  Each function is in one group, so what a group publishes, or
that it fails, stands until the end.
-/

namespace ConstraintTyping

open Store StoreM TypeTree

/-! ## The groups of a module -/

namespace Module

variable {m : Module} {i j : Nat} {f g : FunctionDecl}

/-- The groups in which bodies are checked. -/
def groups (m : Module) : List (List FunctionDecl) :=
  m.bodyGroups.map fun group => group.filterMap fun i => m.functions[i]?

theorem Defines.name_injective (hf : m.Defines i f) (hg : m.Defines j g) (h : f.name = g.name) :
    i = j := by
  rcases lt_trichotomy i j with hlt | heq | hlt
  · exact absurd h (hg.first i hlt f hf.at_index)
  · exact heq
  · exact absurd h.symm (hf.first j hlt g hg.at_index)

/-- A name stands for the first function that has it. -/
theorem Defines.find? (hf : m.Defines i f) : m.functions.find? (·.name = f.name) = some f := by
  obtain ⟨hi, hget⟩ := List.getElem?_eq_some_iff.mp hf.at_index
  refine List.find?_eq_some_iff_getElem.mpr ⟨by simp, i, hi, hget, fun j hj => ?_⟩
  simpa using hf.first j hj _ (List.getElem?_eq_getElem (hj.trans hi))

theorem flatten_groups (m : Module) :
    m.groups.flatten = m.bodyGroups.flatten.filterMap fun i => m.functions[i]? :=
  List.filterMap_flatten.symm

theorem mem_flatten_groups : f ∈ m.groups.flatten ↔ ∃ i, m.Defines i f := by
  rw [flatten_groups, List.mem_filterMap]
  constructor
  · rintro ⟨i, hi, hf⟩
    obtain ⟨f', hf'⟩ := mem_flatten_bodyGroups.mp hi
    obtain rfl := Option.some.inj (hf'.at_index.symm.trans hf)
    exact ⟨i, hf'⟩
  · rintro ⟨i, hf⟩
    exact ⟨i, mem_flatten_bodyGroups.mpr ⟨f, hf⟩, hf.at_index⟩

/-- No two functions of the groups have the same name. -/
theorem nodup_names_groups (m : Module) : (m.groups.flatten.map FunctionDecl.name).Nodup := by
  rw [List.Nodup, List.pairwise_map, flatten_groups, List.pairwise_filterMap]
  refine m.nodup_flatten_bodyGroups.imp_of_mem ?_
  intro i j hi hj hne f hf g hg hname
  obtain ⟨f', hf'⟩ := mem_flatten_bodyGroups.mp hi
  obtain ⟨g', hg'⟩ := mem_flatten_bodyGroups.mp hj
  obtain rfl := Option.some.inj (hf'.at_index.symm.trans hf)
  obtain rfl := Option.some.inj (hg'.at_index.symm.trans hg)
  exact hne (hf'.name_injective hg' hname)

end Module

/-! ## From group to group -/

namespace CheckState

variable {s s₁ s' : CheckState} {config : CheckConfig} {group : List FunctionDecl}
  {gs pre post : List (List FunctionDecl)} {name : Name}

/-- The state in which some groups are still to be checked. -/
structure Ready (gs : List (List FunctionDecl)) (s : CheckState) : Prop where
  registered : s.Registered
  global : ∀ {name : Name} {g : GlobalFn}, s.globals[name]? = some g → g.ty < s.store.size
  /-- The functions on record are the finished ones. -/
  functions : ∀ name : Name,
    s.functions[name]? = ((s.globals[name]?).filter (·.finished)).map (·.ty)
  exprType : ∀ {id : ExprId} {ty : TypeId}, s.exprTypes[id]? = some ty → ty < s.store.size
  waits : ∀ group ∈ gs, s.Waits group
  nodup : (gs.flatten.map FunctionDecl.name).Nodup

theorem Ready.within (h : s.Ready gs) : s.context.Within s.store where
  globals hg := h.global hg
  methods hm := (h.registered.methods.method hm).1.1

theorem Ready.of_append (h : s.Ready (pre ++ post)) : s.Ready pre where
  registered := h.registered
  global := h.global
  functions := h.functions
  exprType := h.exprType
  waits group hgroup := h.waits group (List.mem_append_left _ hgroup)
  nodup := by
    have hnodup := h.nodup
    rw [List.flatten_append, List.map_append] at hnodup
    exact hnodup.of_append_left

theorem Checks.registered (h : Checks config group s s') (hs : s.Registered) : s'.Registered :=
  hs.of_endsWell h.store h.errors (by
    rw [h.functions.traits]
    exact hs.methods.mono fun _ hty => hty.of_le h.store.1.le h.errors)

/-- The groups that are left wait as before. -/
theorem Checks.ready (h : Checks config group s s') (hs : s.Ready (group :: gs)) :
    s'.Ready gs := by
  have hle := h.store.1.le
  obtain ⟨-, hnodup, hdisjoint⟩ := List.nodup_append.mp (by
    have := hs.nodup
    rwa [List.flatten_cons, List.map_append] at this)
  refine ⟨h.registered hs.registered, fun {name g} hg => ?_, fun name => ?_, fun {id ty} hty => ?_,
    fun group' hgroup' => ?_, hnodup⟩
  · by_cases hname : name ∈ group.map FunctionDecl.name
    · obtain ⟨ty, hlt, hglobal, -⟩ := h.functions.finished name hname
      rw [hglobal] at hg
      exact Option.some.inj hg ▸ hlt
    · rw [(h.functions.others name hname).1] at hg
      exact lt_size_of_le hle (hs.global hg)
  · by_cases hname : name ∈ group.map FunctionDecl.name
    · obtain ⟨ty, -, hglobal, hfunction⟩ := h.functions.finished name hname
      rw [hglobal, hfunction]
      rfl
    · obtain ⟨hglobal, hfunction⟩ := h.functions.others name hname
      rw [hglobal, hfunction]
      exact hs.functions name
  · cases h.ended with
    | failed _ hexprTypes _ =>
      rw [hexprTypes] at hty
      exact lt_size_of_le hle (hs.exprType hty)
    | published hpub =>
      by_cases hid : id ∈ bodyExprs group
      · obtain ⟨t, ty', -, hty', hlt, -⟩ := hpub.recorded id hid
        rw [hty'] at hty
        exact Option.some.inj hty ▸ hlt
      · rw [hpub.others id hid] at hty
        exact lt_size_of_le hle (hs.exprType hty)
  · obtain ⟨hnames, hwaits⟩ := hs.waits group' (List.mem_cons_of_mem _ hgroup')
    refine ⟨hnames, fun f hf => ?_⟩
    obtain ⟨ty, hty, hsig, hbody⟩ := hwaits f hf
    have hother : f.name ∉ group.map FunctionDecl.name := fun hmem =>
      hdisjoint _ hmem _ (List.mem_map_of_mem (List.mem_flatten.mpr ⟨group', hgroup', hf⟩)) rfl
    exact ⟨ty, (h.functions.others _ hother).1.trans hty,
      hsig.of_endsWell hs.registered h.store h.errors, hbody⟩

/-- No function of a published group has the error type. -/
theorem Publishes.ne_error {total : Found} {last : Bound} {retained : List TypeTree}
    (h : Publishes config group s s' total last retained) (hwaits : s.Waits group)
    {f : FunctionDecl} (hf : f ∈ group) : s'.functions[f.name]? ≠ some TypeId.error := by
  rw [← hwaits.map_members] at hf
  obtain ⟨m, hm, rfl⟩ := List.mem_map.mp hf
  obtain ⟨ty, hty, -, sig, givens, ρ, -, -, -, htree⟩ := h.general m hm
  rw [hty]
  intro heq
  rw [Option.some.inj heq, show s'.store.tree TypeId.error = prim .error from tree_prim _ _,
    subst_mk rfl] at htree
  cases htree

/-- An error was reported in a group exactly when its functions have the error type. -/
theorem Checks.functions_eq_error_iff (h : Checks config group s s') (hwaits : s.Waits group)
    {f : FunctionDecl} (hf : f ∈ group) :
    s'.functions[f.name]? = some TypeId.error ↔ s.log.errorCount < s'.log.errorCount := by
  cases h.ended with
  | failed herrors _ hfunctions => exact iff_of_true (hfunctions f hf) herrors
  | published hpub => exact iff_of_false (hpub.ne_error hwaits hf) (by rw [hpub.errors]; exact lt_irrefl _)

/-- The expressions that get a type on record are those of the bodies of a group without errors. -/
theorem Checks.isSome_exprType_iff (h : Checks config group s s') (hwaits : s.Waits group)
    (id : ExprId) : (s'.exprTypes[id]?).isSome ↔ (s.exprTypes[id]?).isSome ∨
      ∃ f ∈ group, s'.functions[f.name]? ≠ some TypeId.error ∧ id ∈ f.subexprs.map Expr.id := by
  cases h.ended with
  | failed _ hexprTypes hfunctions =>
    rw [hexprTypes]
    refine ⟨.inl, fun h => h.resolve_right ?_⟩
    rintro ⟨f, hf, hne, -⟩
    exact hne (hfunctions f hf)
  | published hpub =>
    by_cases hid : id ∈ bodyExprs group
    · obtain ⟨f, hf, hmem⟩ := List.mem_flatMap.mp hid
      obtain ⟨t, ty, -, hty, -⟩ := hpub.recorded id hid
      rw [hty]
      exact iff_of_true rfl (.inr ⟨f, hf, hpub.ne_error hwaits hf, hmem⟩)
    · rw [hpub.others id hid]
      refine ⟨.inl, fun h => h.resolve_right ?_⟩
      rintro ⟨f, hf, -, hmem⟩
      exact hid (List.mem_flatMap.mpr ⟨f, hf, hmem⟩)

/-- Groups are checked one after the other. -/
inductive Runs (config : CheckConfig) : CheckState → List (List FunctionDecl) → CheckState → Prop
  | nil {s : CheckState} (hready : s.Ready []) : Runs config s [] s
  | cons {s s₁ s' : CheckState} {group : List FunctionDecl} {gs : List (List FunctionDecl)}
      (hready : s.Ready (group :: gs)) (h : Checks config group s s₁) (hrest : Runs config s₁ gs s') :
      Runs config s (group :: gs) s'

namespace Runs

theorem ready (h : Runs config s gs s') : s'.Ready [] := by
  induction h with
  | nil hready => exact hready
  | cons _ _ _ ih => exact ih

theorem store (h : Runs config s gs s') : DeclM.EndsWell s.store s'.store := by
  induction h with
  | nil hready => exact ⟨.refl _, hready.registered.coherent⟩
  | cons _ hchecks _ ih => exact ⟨hchecks.store.1.trans ih.1, ih.2⟩

theorem errors (h : Runs config s gs s') : s.log.errorCount ≤ s'.log.errorCount := by
  induction h with
  | nil => exact le_rfl
  | cons _ hchecks _ ih => exact hchecks.errors.trans ih

theorem traits (h : Runs config s gs s') : s'.traits = s.traits := by
  induction h with
  | nil => rfl
  | cons _ hchecks _ ih => exact ih.trans hchecks.functions.traits

/-- A function that is in no group on the way is left as it is. -/
theorem others (h : Runs config s gs s') (hname : name ∉ gs.flatten.map FunctionDecl.name) :
    s'.globals[name]? = s.globals[name]? ∧ s'.functions[name]? = s.functions[name]? := by
  induction h with
  | nil => exact ⟨rfl, rfl⟩
  | cons _ hchecks _ ih =>
    rw [List.flatten_cons, List.map_append, List.mem_append, not_or] at hname
    obtain ⟨hglobal, hfunction⟩ := hchecks.functions.others name hname.1
    exact ⟨(ih hname.2).1.trans hglobal, (ih hname.2).2.trans hfunction⟩

/-- What comes of a function of the first group stands until the end. -/
theorem functions_of_mem (hready : s.Ready (group :: gs)) (h : Runs config s₁ gs s')
    {f : FunctionDecl} (hf : f ∈ group) :
    s'.globals[f.name]? = s₁.globals[f.name]? ∧ s'.functions[f.name]? = s₁.functions[f.name]? := by
  have hnodup := hready.nodup
  rw [List.flatten_cons, List.map_append] at hnodup
  exact h.others fun hmem => List.disjoint_of_nodup_append hnodup (List.mem_map_of_mem hf) hmem

/-- A function that is in a group on the way is finished. -/
theorem finished (h : Runs config s gs s') (hname : name ∈ gs.flatten.map FunctionDecl.name) :
    ∃ ty, s'.globals[name]? = some ⟨ty, true⟩ ∧ s'.functions[name]? = some ty := by
  induction h with
  | nil => cases hname
  | cons hready hchecks hrest ih =>
    rw [List.flatten_cons, List.map_append, List.mem_append] at hname
    rcases hname with hname | hname
    · obtain ⟨ty, -, hglobal, hfunction⟩ := hchecks.functions.finished name hname
      obtain ⟨f, hf, rfl⟩ := List.mem_map.mp hname
      have hstands := functions_of_mem hready hrest hf
      exact ⟨ty, hstands.1.trans hglobal, hstands.2.trans hfunction⟩
    · exact ih hname

/-- The expressions with a type on record are those of the bodies of functions that did not get the
error type. -/
theorem isSome_exprType_iff (h : Runs config s gs s') (id : ExprId) :
    (s'.exprTypes[id]?).isSome ↔ (s.exprTypes[id]?).isSome ∨
      ∃ f ∈ gs.flatten, s'.functions[f.name]? ≠ some TypeId.error ∧
        id ∈ f.subexprs.map Expr.id := by
  induction h with
  | nil => simp
  | @cons s s₁ s' group gs hready hchecks hrest ih =>
    rw [ih, hchecks.isSome_exprType_iff (hready.waits group List.mem_cons_self), or_assoc]
    refine or_congr_right ?_
    simp only [List.flatten_cons, List.mem_append, or_and_right, exists_or]
    refine or_congr_left (exists_congr fun f => and_congr_right fun hf => ?_)
    rw [(functions_of_mem hready hrest hf).2]

/-- The check of one group, as a part of the run over all of them. -/
theorem split (h : Runs config s (pre ++ group :: post) s') :
    ∃ s₁ s₂, Runs config s pre s₁ ∧ s₁.Ready (group :: post) ∧ Checks config group s₁ s₂ ∧
      Runs config s₂ post s' := by
  induction pre generalizing s with
  | nil =>
    cases h with
    | @cons _ s₂ _ _ _ hready hchecks hrest =>
      exact ⟨s, s₂, .nil (@Ready.of_append s [] (group :: post) hready), hready, hchecks, hrest⟩
  | cons first pre ih =>
    cases h with
    | cons hready hchecks hrest =>
      obtain ⟨s₁, s₂, hpre, hready₁, hgroup, hpost⟩ := ih hrest
      exact ⟨s₁, s₂, .cons hready.of_append hchecks hpre, hready₁, hgroup, hpost⟩

end Runs

end CheckState

namespace CheckM

open CheckState

variable {s : CheckState} {config : CheckConfig} {group : List FunctionDecl}
  {gs pre : List (List FunctionDecl)}

theorem checkGroups_cons (config : CheckConfig) (group : List FunctionDecl)
    (gs : List (List FunctionDecl)) (s : CheckState) :
    checkGroups config (group :: gs) s =
      if config.limitReached (checkGroup config group s).2.log.errorCount then
        (true, (checkGroup config group s).2)
      else checkGroups config gs (checkGroup config group s).2 := by
  rw [checkGroups, StateM.bind_apply, StateM.bind_apply, StateM.get_apply]
  split <;> rfl

/-- A run over groups that the error limit does not end. -/
theorem runs_checkGroups (h : s.Ready gs)
    (hlimit : ∀ n ≤ (checkGroups config gs s).2.log.errorCount, config.limitReached n = false) :
    Runs config s gs (checkGroups config gs s).2 := by
  induction gs generalizing s with
  | nil => exact .nil h
  | cons group gs ih =>
    have hchecks : Checks config group s (checkGroup config group s).2 :=
      ends_checkGroup config h.registered h.within (h.waits group List.mem_cons_self)
    rw [checkGroups_cons] at hlimit ⊢
    split at hlimit
    · next hreached =>
      rw [hlimit _ le_rfl] at hreached
      cases hreached
    next hgo =>
    rw [if_neg hgo]
    exact .cons h hchecks (ih (hchecks.ready h) hlimit)

/-- When the error limit is never reached, a run over groups goes through the run over its first
part, after which the other groups wait. -/
theorem checkGroups_append (hnever : ∀ n, config.limitReached n = false)
    (h : s.Ready (pre ++ gs)) :
    (checkGroups config pre s).2.Ready gs ∧ (checkGroups config (pre ++ gs) s).2 =
      (checkGroups config gs (checkGroups config pre s).2).2 := by
  induction pre generalizing s with
  | nil => exact ⟨h, rfl⟩
  | cons group pre ih =>
    have hchecks : Checks config group s (checkGroup config group s).2 :=
      ends_checkGroup config h.registered h.within (h.waits group List.mem_cons_self)
    rw [List.cons_append, checkGroups_cons, checkGroups_cons, hnever, if_neg Bool.false_ne_true,
      if_neg Bool.false_ne_true]
    exact ih (hchecks.ready h)

end CheckM

/-! ## The check of a module -/

namespace CheckM

open CheckState

variable {s : CheckState}

/-- Everything that comes before bodies: types, traits, implementations and signatures. -/
def prepare (m : Module) : CheckM Unit := do
  registerTypes m.types
  m.traits.forM registerTrait
  m.impls.forM registerImpl
  m.functions.forM collectSignature

/-- Register the types, traits and implementations of a module. -/
def registerAll (m : Module) : CheckM Unit := do
  registerTypes m.types
  m.traits.forM registerTrait
  m.impls.forM registerImpl

/-- No function has a type after registration. -/
theorem ends_registerAll (m : Module) (h : s.store.Declaring []) (ht : s.traits.NoMethods)
    (hglobals : s.globals = {}) (hfunctions : s.functions = {}) (hexprTypes : s.exprTypes = {}) :
    Ends (registerAll m) s fun _ s' => s'.Collected [] := by
  refine (ends_register m h ht).mono ?_
  rintro _ s' ⟨hregistered, hsame⟩
  refine ⟨hregistered, fun hg => ?_, by simp, fun name => ?_, by rw [hsame.exprTypes, hexprTypes]⟩
  · rw [hsame.globals, hglobals] at hg
    simp at hg
  · rw [hsame.globals, hglobals, hsame.functions, hfunctions]
    simp

theorem ends_prepare (m : Module) (h : s.store.Declaring []) (ht : s.traits.NoMethods)
    (hglobals : s.globals = {}) (hfunctions : s.functions = {}) (hexprTypes : s.exprTypes = {}) :
    Ends (prepare m) s fun _ s' => s'.Collected m.functions := by
  have hrun : prepare m = (do registerAll m; m.functions.forM collectSignature) := rfl
  rw [hrun]
  exact (ends_registerAll m h ht hglobals hfunctions hexprTypes).bind fun _ s₁ h₁ =>
    ends_collectSignatures m.functions h₁

theorem ends_materializeExprTypes_onlyTypes (s : CheckState) :
    Ends materializeExprTypes s fun _ s' => s.OnlyTypes s' ∧ s'.log = s.log := by
  refine ends_get_bind (ends_forM (I := fun s' => s.OnlyTypes s' ∧ s'.log = s.log) _
    ⟨.refl s, rfl⟩ ?_)
  rintro ty - s' ⟨hsame, hlog⟩
  exact ends_build ⟨hsame.trans (s'.onlyTypes_store _), hlog⟩

/-- Giving the types of expressions their bodies is an advance. -/
theorem ends_materializeExprTypes (h : s.Ready []) :
    Ends materializeExprTypes s fun _ s' => DeclM.EndsWell s.store s'.store := by
  refine ends_get_bind (ends_forM (I := fun s' => DeclM.EndsWell s.store s'.store) _
    ⟨.refl _, h.registered.coherent⟩ ?_)
  rintro ty hty s' hends
  obtain ⟨⟨id, ty⟩, hmem, rfl⟩ := List.mem_map.mp
    ((List.mem_mergeSort).mp (List.mem_eraseDups.mp hty))
  have hlt := lt_size_of_le hends.1.le
    (h.exprType (Std.HashMap.mem_toList_iff_getElem?_eq_some.mp hmem))
  have hends' := endsWell_materializeAll hends.2 (hends.1.traced h.registered.traced) hlt
  exact ends_build ⟨hends.1.trans hends'.1, hends'.2⟩

end CheckM

namespace Module

open CheckState CheckM

variable (m : Module) (config : CheckConfig) (log : DiagnosticLog)

/-- The state in which a check begins. -/
@[irreducible] def start : CheckState :=
  { store := (TraitTable.operators Store.new).2
    traits := { (TraitTable.operators Store.new).1 with stepLimit := config.maxUnifySteps }
    log }

/-- The state in which bodies begin to be checked. -/
def prepared : CheckState := (prepare m (start config log)).2

/-- The state after the last group. -/
def checked : CheckState := (checkGroups config m.groups (m.prepared config log)).2

theorem collected_prepared : (m.prepared config log).Collected m.functions := by
  have hinitial := TraitTable.initial_operators
  unfold prepared start
  generalize TraitTable.operators Store.new = operators at hinitial
  exact ends_prepare m hinitial.declaring hinitial.noMethods rfl rfl rfl

theorem ready_prepared : (m.prepared config log).Ready m.groups := by
  have hcollected := m.collected_prepared config log
  generalize m.prepared config log = s at hcollected
  refine ⟨hcollected.registered, fun hg => ?_, hcollected.functions, fun hty => ?_,
    fun group hgroup => ⟨?_, fun f hf => ?_⟩, m.nodup_names_groups⟩
  · obtain ⟨f, -, -, hsig⟩ := hcollected.global hg
    exact hsig.sound.1
  · rw [hcollected.exprTypes] at hty
    simp at hty
  · exact m.nodup_names_groups.sublist ((List.sublist_flatten_of_mem hgroup).map _)
  · obtain ⟨i, hdefines⟩ := mem_flatten_groups.mp (List.mem_flatten_of_mem hgroup hf)
    obtain ⟨g, hg⟩ := Option.isSome_iff_exists.mp
      (hcollected.covers f (List.mem_of_getElem? hdefines.at_index))
    obtain ⟨f', hf', hfinished, hsig⟩ := hcollected.global hg
    obtain rfl := Option.some.inj (hdefines.find?.symm.trans hf')
    obtain ⟨body, hbody⟩ := Option.isSome_iff_exists.mp hdefines.has_body
    rw [hbody] at hfinished
    obtain ⟨ty, finished⟩ := g
    obtain rfl : finished = false := hfinished
    exact ⟨ty, hg, hsig, body, hbody⟩

theorem check_eq : m.check config log =
    let s := (materializeExprTypes (m.checked config log)).2
    let aborted := (checkGroups config m.groups (m.prepared config log)).1
    { store := s.store
      traits := s.traits
      log := s.log
      exprTypes := s.exprTypes
      functions := s.functions
      errorCount := s.log.errorCount
      flow := if s.log.errorCount = 0 then none else some (if aborted then .abort else .recover) } := by
  unfold check checked prepared start StateT.run
  generalize TraitTable.operators Store.new = operators
  obtain ⟨traits, store⟩ := operators
  rfl

/-- A checked module shows the tables of a state. -/
structure Shows (t : TypedModule) (s : CheckState) : Prop where
  traits : t.traits = s.traits
  functions : t.functions = s.functions
  exprTypes : t.exprTypes = s.exprTypes
  errorCount : t.errorCount = s.log.errorCount

theorem shows_check : Shows (m.check config log) (m.checked config log) := by
  obtain ⟨hsame, hlog⟩ := ends_materializeExprTypes_onlyTypes (m.checked config log)
  rw [check_eq]
  exact ⟨hsame.traits, hsame.functions, hsame.exprTypes, congrArg DiagnosticLog.errorCount hlog⟩

/-- The groups of a module are checked to the end, unless the error limit is reached. -/
theorem runs_checked
    (hlimit : ∀ n ≤ (m.check config log).errorCount, config.limitReached n = false) :
    Runs config (m.prepared config log) m.groups (m.checked config log) := by
  rw [(m.shows_check config log).errorCount] at hlimit
  exact runs_checkGroups (m.ready_prepared config log) hlimit

/-- A check without an error goes through all groups. -/
theorem runs_of_clean (h : (m.check config log).errorCount = 0) :
    Runs config (m.prepared config log) m.groups (m.checked config log) ∧
      (m.checked config log).Clean := by
  refine ⟨m.runs_checked config log fun n hn => ?_, (m.shows_check config log).errorCount.symm.trans h⟩
  rw [h, Nat.le_zero] at hn
  rw [hn, CheckConfig.limitReached, Bool.and_eq_false_iff]
  simp only [ge_iff_le, decide_eq_false_iff_not]
  omega

theorem store_check (h : (m.checked config log).Ready []) :
    DeclM.EndsWell (m.checked config log).store (m.check config log).store := by
  rw [check_eq]
  exact ends_materializeExprTypes h

/-! ## All or nothing -/

/-- Without an error limit, every function that is the first of its name and has a body gets a type.
It is the error type exactly when an error was reported while its group was checked.  And the
expressions with a type on record are exactly those of the bodies of the functions whose type is not
the error type. -/
theorem check_all_or_nothing (m : Module) (config : CheckConfig) (log : DiagnosticLog)
    (hlimit : config.errorLimit = 0) :
    let final := m.check config log
    (∀ i f, m.Defines i f → f ∈ m.groups.flatten ∧ f.name ∈ final.functions) ∧
    (∀ before group after, m.groups = before ++ group :: after →
      let s := (checkGroups config before (m.prepared config log)).2
      let s' := (checkGroup config group s).2
      ∀ f ∈ group, final.functions[f.name]? = some TypeId.error ↔
        s.log.errorCount < s'.log.errorCount) ∧
    ∀ id, id ∈ final.exprTypes ↔ ∃ i f, m.Defines i f ∧
      final.functions[f.name]? ≠ some TypeId.error ∧ ∃ e ∈ f.subexprs, e.id = id := by
  intro final
  have hnever : ∀ n, config.limitReached n = false := fun n => by
    simp [CheckConfig.limitReached, hlimit]
  have hready := m.ready_prepared config log
  have hruns := m.runs_checked config log fun n _ => hnever n
  have hshows := m.shows_check config log
  refine ⟨fun i f hf => ?_, fun before group after hsplit => ?_, fun id => ?_⟩
  · have hmem : f ∈ m.groups.flatten := mem_flatten_groups.mpr ⟨i, hf⟩
    obtain ⟨ty, -, hty⟩ := hruns.finished (List.mem_map_of_mem hmem)
    rw [Std.HashMap.mem_iff_isSome_getElem?, hshows.functions, hty]
    exact ⟨hmem, rfl⟩
  · intro s s' f hf
    rw [hsplit] at hready
    obtain ⟨hs, hend⟩ := checkGroups_append hnever hready
    have hwaits := hs.waits group List.mem_cons_self
    have hchecks : Checks config group s s' := ends_checkGroup config hs.registered hs.within hwaits
    have hrest := runs_checkGroups (hchecks.ready hs) fun n _ => hnever n
    have hchecked : m.checked config log = (checkGroups config after s').2 := by
      rw [checked, hsplit, hend, checkGroups_cons, hnever, if_neg Bool.false_ne_true]
    rw [hshows.functions, hchecked, (Runs.functions_of_mem hs hrest hf).2]
    exact hchecks.functions_eq_error_iff hwaits hf
  · rw [Std.HashMap.mem_iff_isSome_getElem?, hshows.exprTypes, hshows.functions,
      hruns.isSome_exprType_iff, (m.collected_prepared config log).exprTypes]
    simp only [mem_flatten_groups, List.mem_map, Std.HashMap.getElem?_empty, Option.isSome_none,
      Bool.false_eq_true, false_or]
    exact ⟨fun ⟨f, ⟨i, hf⟩, h⟩ => ⟨i, f, hf, h⟩, fun ⟨i, f, hf, h⟩ => ⟨f, ⟨i, hf⟩, h⟩⟩

/-- The function `name(x) = callee(x)`. -/
def forwarder (name callee : Name) (first : ExprId) : FunctionDecl where
  name := name
  params := [⟨"x", none, Span.none⟩]
  ret := none
  given := []
  isMeta := false
  isVariadic := false
  body := some (.mk first Span.none (.call (.mk (first + 1) Span.none (.ident callee))
    [.mk (first + 2) Span.none (.ident "x")]))
  span := Span.none

/-- Two functions that call each other. -/
def pingPong : Module := { functions := [forwarder "ping" "pong" 0, forwarder "pong" "ping" 3] }

theorem groups_pingPong : pingPong.groups = [pingPong.functions] := by
  have hgroups : pingPong.bodyGroups = [[0, 1]] :=
    congrArg ([·]) (List.mergeSort_of_pairwise (by decide))
  rw [groups, hgroups]
  rfl

theorem defines_ping : pingPong.Defines 0 (forwarder "ping" "pong" 0) :=
  ⟨rfl, rfl, fun _ hj => absurd hj (Nat.not_lt_zero _)⟩

theorem check_all_or_nothing_pingPong :
    let final := pingPong.check {} {}
    let s := pingPong.prepared {} {}
    let s' := (checkGroup {} pingPong.functions s).2
    ({} : CheckConfig).errorLimit = 0 ∧ "ping" ∈ final.functions ∧
      (final.functions["ping"]? = some TypeId.error ↔ s.log.errorCount < s'.log.errorCount) ∧
      (3 ∈ final.exprTypes ↔ ∃ i f, pingPong.Defines i f ∧
        final.functions[f.name]? ≠ some TypeId.error ∧ ∃ e ∈ f.subexprs, e.id = 3) := by
  obtain ⟨hfunctions, hgroups, hexprs⟩ := pingPong.check_all_or_nothing {} {} rfl
  have hping := hgroups [] pingPong.functions [] groups_pingPong (forwarder "ping" "pong" 0)
    List.mem_cons_self
  exact ⟨rfl, (hfunctions 0 _ defines_ping).2, hping, hexprs 3⟩

end Module

end ConstraintTyping
