import ConstraintTyping.Proofs.Check.Groups

/-!
# Modules without errors

A group is accepted when its bodies are walked without a report, their equations can be solved, and
the obligations of their calls are left to callers.  A module is checked without an error if nothing
is wrong with its declarations and each group is accepted when its turn comes.
-/

namespace ConstraintTyping

open Store StoreM TypeTree CheckState

namespace CheckM

variable {s : CheckState} {config : CheckConfig} {gs : List (List FunctionDecl)}

/-- Groups that are accepted when their turn comes leave no error. -/
theorem clean_checkGroups (h : s.Ready gs) (hclean : s.Clean)
    (haccepts : ∀ pre group post s₁, gs = pre ++ group :: post → Runs config s pre s₁ →
      s₁.Ready (group :: post) → s₁.Clean → Accepts config group s₁) :
    (checkGroups config gs s).2.Clean := by
  induction gs generalizing s with
  | nil => exact hclean
  | cons group gs ih =>
    have hchecks : Checks config group s (checkGroup config group s).2 :=
      ends_checkGroup config h.registered h.within (h.waits group List.mem_cons_self)
    have hclean₁ : (checkGroup config group s).2.Clean := by
      cases hchecks.ended with
      | failed _ _ _ hrefused =>
        exact absurd (haccepts [] group gs s rfl (.nil (@Ready.of_append s [] _ h)) h hclean) hrefused
      | published hpub => exact hpub.errors.trans hclean
    have hgo : config.limitReached (checkGroup config group s).2.log.errorCount = false := by
      rw [show (checkGroup config group s).2.log.errorCount = 0 from hclean₁,
        CheckConfig.limitReached, Bool.and_eq_false_iff]
      simp only [ge_iff_le, decide_eq_false_iff_not]
      omega
    rw [checkGroups_cons, hgo, if_neg Bool.false_ne_true]
    refine ih (hchecks.ready h) hclean₁ fun pre group' post s₁ hsplit hruns => ?_
    refine haccepts (group :: pre) group' post s₁ (by rw [hsplit]; rfl) (.cons ?_ hchecks hruns)
    rw [hsplit, ← List.cons_append] at h
    exact h.of_append

end CheckM

namespace Module

variable {m : Module} {config : CheckConfig} {log : DiagnosticLog}

/-- A module whose declarations are in order and whose groups are accepted has no error. -/
theorem errorCount_check_eq_zero (hprepared : (m.prepared config log).Clean)
    (haccepts : ∀ pre group post s, m.groups = pre ++ group :: post →
      Runs config (m.prepared config log) pre s → s.Ready (group :: post) → s.Clean →
      Accepts config group s) :
    (m.check config log).errorCount = 0 := by
  rw [(m.shows_check config log).errorCount]
  exact CheckM.clean_checkGroups (m.ready_prepared config log) hprepared haccepts

/-- A module with one group has no error if the group is accepted at once. -/
theorem errorCount_check_of_accepts {group : List FunctionDecl} (hgroups : m.groups = [group])
    (hprepared : (m.prepared config log).Clean)
    (haccepts : Accepts config group (m.prepared config log)) :
    (m.check config log).errorCount = 0 := by
  refine errorCount_check_eq_zero hprepared ?_
  intro pre group' post s hsplit hruns _ _
  rw [hgroups] at hsplit
  cases pre with
  | cons g pre => simp at hsplit
  | nil =>
    cases hruns
    obtain ⟨rfl, -⟩ := List.cons.inj hsplit
    exact haccepts

/-- The state in which a check begins knows no function and only the operator traits. -/
theorem initial_start (config : CheckConfig) (log : DiagnosticLog) :
    (start config log).traits.Initial (start config log).store ∧ (start config log).globals = {} ∧
      (start config log).log = log := by
  have hinitial := TraitTable.initial_operators
  unfold start
  generalize TraitTable.operators Store.new = operators at hinitial
  exact ⟨⟨hinitial.declaring, hinitial.noMethods, hinitial.traits, hinitial.impls⟩, rfl, rfl⟩

end Module

/-! ## Signatures without reports -/

/-- A written type that can be read in every store. -/
def TypeExpr.Readable (w : TypeExpr) : Prop :=
  ∀ (span : Span) (st : Store), ∃ ty st', (w.resolve span).run st = (.ok ty, st')

/-- A reference to a known trait, at as many types as it takes. -/
structure TraitRef.Readable (r : TraitRef) (traits : TraitTable) : Prop where
  args : ∀ w ∈ r.args, w.Readable
  entry : ∃ entry, traits.trait? r.traitName = some entry ∧ entry.params.length = r.args.length
  nonempty : r.args ≠ []

/-- All that is written of a function can be read. -/
structure FunctionDecl.Readable (f : FunctionDecl) (traits : TraitTable) : Prop where
  params : ∀ p ∈ f.params, ∀ w ∈ p.written, w.Readable
  ret : ∀ w ∈ f.ret, w.Readable
  given : ∀ r ∈ f.given, r.Readable traits

namespace CheckM

variable {α β : Type} {s : CheckState}

/-- A step that changes the store and nothing else. -/
def Quiet (act : CheckM α) (s : CheckState) : Prop :=
  ∀ st, Ends act { s with store := st } fun _ s' => ∃ st', s' = { s with store := st' }

theorem Quiet.bind {act : CheckM α} {f : α → CheckM β} (h : Quiet act s) (hf : ∀ a, Quiet (f a) s) :
    Quiet (act >>= f) s := fun st => by
  refine (h st).bind fun a s' hs' => ?_
  obtain ⟨st', rfl⟩ := hs'
  exact hf a st'

theorem quiet_pure (a : α) : Quiet (pure a) s := fun st => ⟨st, rfl⟩

theorem quiet_build (act : StoreM α) : Quiet (build act) s := fun st => ⟨(act st).2, rfl⟩

theorem quiet_mapM {f : α → CheckM β} {xs : List α} (h : ∀ x ∈ xs, Quiet (f x) s) :
    Quiet (xs.mapM f) s := by
  induction xs with
  | nil => exact quiet_pure []
  | cons x xs ih =>
    rw [List.mapM_cons]
    refine (h x List.mem_cons_self).bind fun y => ?_
    exact (ih fun z hz => h z (List.mem_cons_of_mem x hz)).bind fun ys => quiet_pure _

theorem ends_length_mapM (f : α → CheckM β) (xs : List α) :
    Ends (xs.mapM f) s fun ys _ => ys.length = xs.length := by
  induction xs generalizing s with
  | nil => rfl
  | cons x xs ih =>
    rw [List.mapM_cons]
    refine Ends.bind (Q := fun _ _ => True) trivial fun y s₁ _ => ih.bind fun ys s₂ hys => ?_
    exact ends_pure (congrArg (· + 1) hys)

theorem quiet_resolve {w : TypeExpr} (hw : w.Readable) (span : Span) : Quiet (resolve w span) s := by
  intro st
  obtain ⟨ty, st', hrun⟩ := hw span st
  refine Ends.bind (Q := fun r s' => r = .ok ty ∧ s' = { s with store := st' }) ?_ ?_
  · exact ends_build (by rw [hrun]; exact ⟨rfl, rfl⟩)
  · rintro _ _ ⟨rfl, rfl⟩
    exact ⟨st', rfl⟩

theorem quiet_resolveOrFresh {written : Option TypeExpr} (h : ∀ w ∈ written, w.Readable)
    (span : Span) : Quiet (resolveOrFresh written span) s := by
  cases written with
  | none => exact quiet_build _
  | some w => exact quiet_resolve (h w rfl) span

theorem quiet_resolveTraitRef {r : TraitRef} (hr : r.Readable s.traits)
    (explain : TraitError → TypeFault) : Quiet (resolveTraitRef explain r) s := by
  obtain ⟨entry, hentry, hlen⟩ := hr.entry
  intro st
  refine Ends.bind (Q := fun tys s' => tys.length = r.args.length ∧
    ∃ st', s' = { s with store := st' }) ⟨?_, ?_⟩ ?_
  · exact ends_length_mapM _ _
  · exact quiet_mapM (fun w hw => quiet_resolve (hr.args w hw) _) st
  · rintro tys _ ⟨htys, st', rfl⟩
    cases tys with
    | nil => exact absurd (List.eq_nil_of_length_eq_zero htys.symm) hr.nonempty
    | cons subject args =>
      refine ends_get_bind (Ends.bind (Q := fun made s' => (∃ o, made = .ok o) ∧
        ∃ st'', s' = { s with store := st'' }) (ends_build ⟨?_, _, rfl⟩) ?_)
      · unfold TraitTable.obligation
        simp only [hentry]
        rw [if_pos (by rw [hlen, ← htys, List.length_cons])]
        exact ⟨_, rfl⟩
      · rintro _ _ ⟨⟨o, rfl⟩, st'', rfl⟩
        exact ⟨st'', rfl⟩

theorem quiet_signature {f : FunctionDecl} (hf : f.Readable s.traits) : Quiet (signature f) s := by
  refine (quiet_mapM fun p hp => quiet_resolveOrFresh (hf.params p hp) _).bind fun params => ?_
  refine (quiet_resolveOrFresh hf.ret _).bind fun ret => ?_
  exact (quiet_mapM fun r hr => quiet_resolveTraitRef (hf.given r hr) _).bind fun givens =>
    quiet_build _

/-- A function whose signature can be read is collected without a report, if its name is free. -/
theorem ends_collectSignature_readable {f : FunctionDecl} (hf : f.Readable s.traits)
    (hfree : s.globals.contains f.name = false) :
    Ends (collectSignature f) s fun _ s' => s'.log = s.log ∧ s'.traits = s.traits ∧
      ∃ g, s'.globals = s.globals.insert f.name g := by
  refine ends_get_bind ?_
  rw [if_neg (by rw [hfree]; exact Bool.false_ne_true)]
  refine (quiet_signature hf s.store).bind fun ty s₁ hs₁ => ?_
  obtain ⟨st', rfl⟩ := hs₁
  exact ends_modify ⟨rfl, rfl, _, rfl⟩

/-- So are functions with names of their own. -/
theorem ends_collectSignatures_readable {fs : List FunctionDecl}
    (hfs : ∀ f ∈ fs, f.Readable s.traits) (hnodup : (fs.map FunctionDecl.name).Nodup)
    (hfree : ∀ f ∈ fs, s.globals.contains f.name = false) :
    Ends (fs.forM collectSignature) s fun _ s' => s'.log = s.log ∧ s'.traits = s.traits := by
  induction fs generalizing s with
  | nil => exact ⟨rfl, rfl⟩
  | cons f fs ih =>
    rw [List.map_cons, List.nodup_cons] at hnodup
    refine (ends_collectSignature_readable (hfs f List.mem_cons_self)
      (hfree f List.mem_cons_self)).bind ?_
    rintro _ s₁ ⟨hlog, htraits, g, hglobals⟩
    refine (ih (fun f' hf' => ?_) hnodup.2 fun f' hf' => ?_).mono fun _ s₂ ⟨hlog₂, htraits₂⟩ =>
      ⟨hlog₂.trans hlog, htraits₂.trans htraits⟩
    · rw [htraits]
      exact hfs f' (List.mem_cons_of_mem f hf')
    · have hne : f.name ≠ f'.name := fun heq => hnodup.1 (heq ▸ List.mem_map_of_mem hf')
      rw [hglobals, Std.HashMap.contains_insert, hfree f' (List.mem_cons_of_mem f hf')]
      simpa using hne

end CheckM

/-- A module of functions is prepared without a report, if their signatures can be read and their
names differ. -/
theorem Module.clean_prepared {fs : List FunctionDecl}
    (hfs : ∀ f ∈ fs, f.Readable (start {} {}).traits) (hnodup : (fs.map FunctionDecl.name).Nodup) :
    (prepared { functions := fs } {} {}).Clean := by
  obtain ⟨-, hglobals, hlog⟩ := initial_start {} {}
  have hprepared : prepared { functions := fs } {} {} =
      (fs.forM CheckM.collectSignature (start {} {})).2 := rfl
  obtain ⟨hlog', -⟩ := CheckM.ends_collectSignatures_readable hfs hnodup (by simp [hglobals])
  rw [hprepared, Clean, hlog', hlog]

/-! ## Walks over a single function -/

theorem TypeTree.not_occurs_prim (x : VarIdent) (p : Prim) : ¬ (TypeTree.prim p).Occurs x := by
  simp [occurs_mk, Shape.varIdent?, Shape.children]

/-- A primitive type that is written is that type. -/
theorem Declarations.Denotes.eq_prim {D : Declarations} {vars : VarIdent → TypeTree} {name : Name}
    {p : Prim} {t : TypeTree} (h : D.Denotes vars (.named name []) t)
    (hp : Prim.ofName? name = some p) : t = TypeTree.prim p := by
  cases h with
  | prim hp' => rw [Option.some.inj (hp'.symm.trans hp)]
  | declared hnone =>
    rw [hnone rfl] at hp
    cases hp

namespace CheckState

variable {s : CheckState}

theorem WrittenAs.tree_eq_prim {name : Name} {p : Prim} {ty : TypeId}
    (h : s.WrittenAs (some (.named name [])) ty) (hclean : s.Clean)
    (hp : Prim.ofName? name = some p) : s.store.tree ty = prim p :=
  (h.denotes hclean _ rfl).eq_prim hp

/-- The walk over a group of one function is the walk over its body. -/
theorem walk_singleton {f : FunctionDecl} {ty : TypeId} {sig : Signature TypeId} {body : Expr}
    (hty : s.globals[f.name]? = some ⟨ty, false⟩) (hsig : s.store.signature? ty = some sig)
    (hbody : f.body = some body) :
    s.walk [f] = ((do
      FindM.enterScope
      (f.params.zip sig.params).forM fun (param, ty) => FindM.bind param.name ty
      let bodyTy ← body.infer
      FindM.equal sig.ret bodyTy body.span .body
      FindM.exitScope : FindM Unit) s.context ⟨s.store, {}, {}, s.log⟩).2 := by
  have hmembers : s.members [f] = [(f, ty)] := by
    rw [members, List.filterMap_cons, hty]
    rfl
  have hwalk : s.walk [f] = (FindM.functionRule f ty s.context ⟨s.store, {}, {}, s.log⟩).2 := by
    rw [walk, hmembers]
    rfl
  rw [hwalk, FindM.functionRule, FindM.query_bind, hsig, hbody]

/-- The walk over a function without parameters. -/
theorem walk_noParams {f : FunctionDecl} {ty bodyTy : TypeId} {sig : Signature TypeId}
    {body : Expr} {st : FindState} (hty : s.globals[f.name]? = some ⟨ty, false⟩)
    (hsig : s.store.signature? ty = some sig) (hbody : f.body = some body) (hparams : f.params = [])
    (hinfer : body.infer s.context ⟨s.store, Scopes.enter {}, {}, s.log⟩ = (bodyTy, st)) :
    s.walk [f] = { st with
      scopes := st.scopes.exit
      finding.constraints := st.finding.constraints.push
        (.equal sig.ret bodyTy body.span .body) } := by
  rw [walk_singleton hty hsig hbody, hparams]
  have hrun : (do
      FindM.enterScope
      ([].zip sig.params).forM fun (param, ty) => FindM.bind (Param.name param) ty
      let bodyTy ← body.infer
      FindM.equal sig.ret bodyTy body.span .body
      FindM.exitScope : FindM Unit) s.context ⟨s.store, {}, {}, s.log⟩ =
      (do
        FindM.equal sig.ret
          (body.infer s.context ⟨s.store, Scopes.enter {}, {}, s.log⟩).1 body.span .body
        FindM.exitScope : FindM Unit) s.context
        (body.infer s.context ⟨s.store, Scopes.enter {}, {}, s.log⟩).2 := rfl
  rw [hrun, hinfer]
  rfl

end CheckState

namespace FindM

section Names

variable {name : Name} {ty : TypeId} {context : FindContext} {st : FindState}

/-- The name of a function that is not finished is read as its type. -/
theorem identRule_waiting (hlocal : st.scopes.lookup? name = none)
    (hty : context.globals[name]? = some ⟨ty, false⟩) (span : Span) :
    identRule name span context st = (ty, st) := by
  rw [identRule_apply, hlocal, hty]
  rfl

theorem infer_ident {span : Span} (h : identRule name span context st = (ty, st)) (id : ExprId) :
    (Expr.mk id span (.ident name)).infer context st =
      (ty, { st with finding.exprTypes := st.finding.exprTypes.insert id ty }) := by
  have hrun : (Expr.mk id span (.ident name)).infer context st =
      record id (identRule name span context st).1 context (identRule name span context st).2 := rfl
  rw [hrun, h]
  rfl

end Names

end FindM

/-! ## A choice between numbers -/

/-- The function `choose(c : bool, x : i32) -> i32 = if c { x } else { 1 }`. -/
def chooseFn : FunctionDecl where
  name := "choose"
  params := [⟨"c", some (.named "bool" []), Span.none⟩, ⟨"x", some (.named "i32" []), Span.none⟩]
  ret := some (.named "i32" [])
  given := []
  isMeta := false
  isVariadic := false
  body := some (.mk 0 Span.none (.ifElse (.mk 1 Span.none (.ident "c"))
    (.mk 2 Span.none (.ident "x")) (.mk 3 Span.none (.int 1 none))))
  span := Span.none

/-- The module of that function. -/
def chooseModule : Module := { functions := [chooseFn] }

theorem clean_prepared_chooseModule : (chooseModule.prepared {} {}).Clean := by
  have hcollect : ∀ s : CheckState, s.globals.contains chooseFn.name = false →
      (CheckM.collectSignature chooseFn s).2.log = s.log := by
    intro s hs
    unfold CheckM.collectSignature
    rw [StateM.bind_apply, StateM.get_apply]
    simp only [hs]
    rfl
  obtain ⟨-, hglobals, hlog⟩ := Module.initial_start {} {}
  have hprepared := hcollect (Module.start {} {}) (by simp [hglobals])
  rw [hlog] at hprepared
  exact congrArg DiagnosticLog.errorCount hprepared

/-- The walk over the body asks for three equations between types without variables. -/
theorem walk_chooseFn {s : CheckState} (hs : s.Waits [chooseFn]) (hclean : s.Clean) :
    ∃ c x ret, s.store.tree c = prim .bool ∧ s.store.tree x = prim .i32 ∧
      s.store.tree ret = prim .i32 ∧ (s.walk [chooseFn]).log = s.log ∧
      (s.walk [chooseFn]).store = s.store ∧ (s.walk [chooseFn]).finding.callSites = #[] ∧
      (s.walk [chooseFn]).finding.constraints =
        #[.equal TypeId.bool c Span.none .condition, .equal x TypeId.i32 Span.none .branch,
          .equal ret x Span.none .body] := by
  obtain ⟨ty, hty, hsig, -⟩ := hs.waits chooseFn List.mem_cons_self
  obtain ⟨⟨ret, params, givens, isMeta, isVariadic⟩, hsignature, hparams, hret, -⟩ := hsig.signature
  obtain ⟨c, x, rfl, hc, hx⟩ : ∃ c x, params = [c, x] ∧
      s.WrittenAs (some (.named "bool" [])) c ∧ s.WrittenAs (some (.named "i32" [])) x := by
    obtain ⟨c, rest, hc, hrest, rfl⟩ := List.forall₂_cons_left_iff.mp hparams
    obtain ⟨x, rest', hx, hnil, rfl⟩ := List.forall₂_cons_left_iff.mp hrest
    obtain rfl := List.forall₂_nil_left_iff.mp hnil
    exact ⟨c, x, rfl, hc, hx⟩
  refine ⟨c, x, ret, hc.tree_eq_prim hclean rfl, hx.tree_eq_prim hclean rfl,
    hret.tree_eq_prim hclean rfl, ?_⟩
  rw [walk_singleton hty hsignature rfl]
  exact ⟨rfl, rfl, rfl, rfl⟩

theorem groups_chooseModule : chooseModule.groups = [[chooseFn]] := by
  have hgroups : chooseModule.bodyGroups = [[0]] := congrArg ([·]) (List.mergeSort_singleton 0)
  rw [Module.groups, hgroups]
  rfl

theorem errorCount_check_chooseModule : (chooseModule.check {} {}).errorCount = 0 := by
  refine Module.errorCount_check_eq_zero clean_prepared_chooseModule ?_
  intro pre group post s hsplit _ hready hclean
  obtain rfl : group = [chooseFn] := by
    have hmem : group ∈ chooseModule.groups := by simp [hsplit]
    simpa [groups_chooseModule] using hmem
  obtain ⟨c, x, ret, hc, hx, hret, hlog, hstore, hsites, hconstraints⟩ :=
    walk_chooseFn (hready.waits _ List.mem_cons_self) hclean
  refine ⟨by rw [hlog], [], ?_, ?_, ?_⟩
  · rw [hconstraints, hstore]
    refine .of_agree (by decide) ?_
    simp [Constraint.equation?, hc, hx, hret, TypeId.bool, TypeId.i32, tree_prim]
  · simp [hconstraints, Constraint.obligation?]
  · simp [hsites]

/-! ## A function that asks for a trait -/

/-- A function `use` without parameters. -/
def useFn (ret : Option TypeExpr) (body : Expr) : FunctionDecl where
  name := "use"
  params := []
  ret
  given := []
  isMeta := false
  isVariadic := false
  body := some body
  span := Span.none

theorem readable_prim {name : Name} {p : Prim} (hp : Prim.ofName? name = some p) :
    (TypeExpr.named name []).Readable := fun span st => by
  refine ⟨TypeId.ofPrim p, st, ?_⟩
  rw [TypeExpr.resolve, hp]
  rfl

theorem readable_var (name : Name) : (TypeExpr.var name).Readable := fun _ _ => ⟨_, _, rfl⟩

section Declarations

variable {bound : TypeExpr} {ret : Option TypeExpr} {body : Expr} {config : CheckConfig}
  {s : CheckState}

theorem readable_useFn (hret : ∀ w ∈ ret, w.Readable) (traits : TraitTable) :
    (useFn ret body).Readable traits where
  params := by simp [useFn]
  ret := hret
  given := by simp [useFn]

end Declarations

/-! ### A name that is returned -/

section Parameter

variable {f : FunctionDecl} {x prim v : Name} {p : Prim}

theorem readable_of_param (hp : Prim.ofName? prim = some p)
    (hparams : f.params = [⟨x, some (.named prim []), Span.none⟩]) (hret : f.ret = some (.var v))
    (hgiven : f.given = []) {traits : TraitTable} : f.Readable traits where
  params := by
    rw [hparams]
    refine List.forall_mem_singleton.mpr fun w hw => ?_
    obtain rfl := Option.some.inj hw
    exact readable_prim hp
  ret w hw := by
    rw [hret] at hw
    obtain rfl := Option.some.inj hw
    exact readable_var v
  given := by simp [hgiven]

/-- What is written of such a function. -/
theorem CheckState.SignatureOf.of_param {s : CheckState} {T : Store} {ty : TypeId}
    (h : s.SignatureOf f ty) (hp : Prim.ofName? prim = some p)
    (hparams : f.params = [⟨x, some (.named prim []), Span.none⟩]) (hret : f.ret = some (.var v))
    (hclean : s.Clean) (hle : s.store ≤ T) : ∃ sig x, T.signature? ty = some sig ∧ sig.params = [x] ∧
      T.tree sig.ret = var (.named v) ∧ T.tree x = TypeTree.prim p := by
  obtain ⟨sig, hsig, hparamTys, hretTy, -⟩ := h.signature
  rw [hparams] at hparamTys
  rw [hret] at hretTy
  obtain ⟨x, rest, hx, hnil, hcons⟩ := List.forall₂_cons_left_iff.mp hparamTys
  obtain rfl := List.forall₂_nil_left_iff.mp hnil
  refine ⟨sig, x, (FindM.signature?_of_le hle h.sound.1).trans hsig, hcons, ?_, ?_⟩
  · rw [tree_of_le hle hretTy.sound.1]
    exact (hretTy.denotes hclean _ rfl).unique .var fun _ => rfl
  · rw [tree_of_le hle hx.sound.1, hx.tree_eq_prim hclean hp]

end Parameter

/-! ## Two functions that refer to each other -/

section Partners

/-- The expression `{ other; x }`. -/
def partnerBody (other : Name) (first : ExprId) : Expr :=
  .mk first Span.none (.block [.mk (first + 1) Span.none (.ident other),
    .mk (first + 2) Span.none (.ident "x")])

/-- The function `name(x : prim) -> 'v = { other; x }`. -/
def partnerFn (name other prim v : Name) (first : ExprId) : FunctionDecl where
  name := name
  params := [⟨"x", some (.named prim []), Span.none⟩]
  ret := some (.var v)
  given := []
  isMeta := false
  isVariadic := false
  body := some (partnerBody other first)
  span := Span.none

/-- Two functions that refer to each other, one over `i32`, the other over `bool`. -/
def partners (t v : Name) : Module where
  functions := [partnerFn "left" "right" "i32" t 0, partnerFn "right" "left" "bool" v 3]

theorem bodyGroups_partners (t v : Name) : (partners t v).bodyGroups = [[0, 1]] := by
  have hsorted : ([0, 1] : List Nat).mergeSort = [0, 1] := List.mergeSort_of_pairwise (by decide)
  exact congrArg ([·]) hsorted

theorem groups_partners (t v : Name) : (partners t v).groups = [(partners t v).functions] := by
  rw [Module.groups, bodyGroups_partners]
  rfl

theorem readable_partnerFn {name other prim v : Name} {first : ExprId} {p : Prim}
    (hp : Prim.ofName? prim = some p) (traits : TraitTable) :
    (partnerFn name other prim v first).Readable traits :=
  readable_of_param hp rfl rfl rfl

theorem clean_prepared_partners (t v : Name) : ((partners t v).prepared {} {}).Clean :=
  Module.clean_prepared (List.forall_mem_cons.mpr ⟨readable_partnerFn rfl _,
    List.forall_mem_singleton.mpr (readable_partnerFn rfl _)⟩) (by simp [partnerFn])

variable {name other prim v : Name} {first : ExprId} {context : FindContext} {st : FindState}
  {ty : TypeId}

/-- What is found in the body of such a function. -/
theorem infer_partnerBody {x callee : TypeId} (hx : st.scopes.lookup? "x" = some x)
    (hlocal : st.scopes.lookup? other = none)
    (hglobal : context.globals[other]? = some ⟨callee, false⟩) : ∃ exprTypes,
    (partnerBody other first).infer context st =
      (x, { st with finding.exprTypes := exprTypes }) := by
  obtain ⟨store, scopes, finding, log⟩ := st
  let start : FindState := ⟨store, scopes.enter, finding, log⟩
  let between : FindState :=
    { start with finding.exprTypes := finding.exprTypes.insert (first + 1) callee }
  have hrun : (partnerBody other first).infer context ⟨store, scopes, finding, log⟩ =
      FindM.record first
        ((Expr.mk (first + 2) Span.none (.ident "x")).infer context
          ((Expr.mk (first + 1) Span.none (.ident other)).infer context start).2).1 context
        (FindM.exitScope context ((Expr.mk (first + 2) Span.none (.ident "x")).infer context
          ((Expr.mk (first + 1) Span.none (.ident other)).infer context start).2).2).2 := rfl
  have hother := FindM.infer_ident
    (@FindM.identRule_waiting other callee context start hlocal hglobal Span.none) (first + 1)
  have hlast := FindM.infer_ident
    (@FindM.identRule_local context between "x" x hx Span.none) (first + 2)
  rw [hrun, hother, hlast]
  exact ⟨_, rfl⟩

/-- The body is walked, and must have the type of the result. -/
theorem functionRule_partnerFn {sig : Signature TypeId} {x callee : TypeId}
    (hty : st.store.signature? ty = some sig) (hparams : sig.params = [x])
    (hscopes : st.scopes = {}) (hother : other ≠ "x")
    (hglobal : context.globals[other]? = some ⟨callee, false⟩) :
    ∃ exprTypes, (FindM.functionRule (partnerFn name other prim v first) ty context st).2 =
      { st with
        finding.exprTypes := exprTypes
        finding.constraints :=
          st.finding.constraints.push (.equal sig.ret x Span.none .body) } := by
  obtain ⟨store, scopes, finding, log⟩ := st
  obtain rfl := hscopes
  obtain ⟨ret, params, givens, isMeta, isVariadic⟩ := sig
  obtain rfl := hparams
  let inside : FindState := ⟨store, ⟨[[("x", x)], []]⟩, finding, log⟩
  obtain ⟨exprTypes, hbody⟩ := @infer_partnerBody other first context inside x callee rfl
    (by simp [inside, Scopes.lookup?, hother]) hglobal
  refine ⟨exprTypes, ?_⟩
  rw [FindM.functionRule, FindM.query_bind, hty]
  calc _ = (FindM.exitScope context (FindM.equal ret
        ((partnerBody other first).infer context inside).1 Span.none .body context
        ((partnerBody other first).infer context inside).2).2).2 := rfl
    _ = _ := by rw [hbody]; rfl

theorem members_partners {s : CheckState} {t : Name} {left right : TypeId}
    (hleft : s.globals["left"]? = some ⟨left, false⟩)
    (hright : s.globals["right"]? = some ⟨right, false⟩) :
    s.members (partners t v).functions = [(partnerFn "left" "right" "i32" t 0, left),
      (partnerFn "right" "left" "bool" v 3, right)] := by
  rw [members, partners, List.filterMap_cons, List.filterMap_cons, partnerFn, partnerFn, hleft,
    hright]
  rfl

/-- The bodies ask for each result variable to be the type of the parameter. -/
theorem walk_partners {s : CheckState} {t : Name} (hs : s.Waits (partners t v).functions)
    (hclean : s.Clean) : ∃ finding,
      s.walk (partners t v).functions = ⟨s.store, {}, finding, s.log⟩ ∧
      finding.callSites = #[] ∧
      finding.constraints.toList.filterMap Constraint.obligation? = [] ∧
      finding.constraints.toList.filterMap (Constraint.equation? s.store) =
        [(var (.named t), TypeTree.prim .i32), (var (.named v), TypeTree.prim .bool)] := by
  obtain ⟨left, hleft, hleftSig, -⟩ := hs.waits _ List.mem_cons_self
  obtain ⟨right, hright, hrightSig, -⟩ := hs.waits _ (List.mem_cons_of_mem _ List.mem_cons_self)
  obtain ⟨sig, x, hsig, hparams, hret, hx⟩ := hleftSig.of_param rfl rfl rfl hclean le_rfl
  obtain ⟨sig', y, hsig', hparams', hret', hy⟩ := hrightSig.of_param rfl rfl rfl hclean le_rfl
  have hwalk : s.walk (partners t v).functions =
      (FindM.functionRule (partnerFn "right" "left" "bool" v 3) right s.context
        (FindM.functionRule (partnerFn "left" "right" "i32" t 0) left s.context
          ⟨s.store, {}, {}, s.log⟩).2).2 := by
    rw [walk, members_partners hleft hright]
    rfl
  obtain ⟨types, hrun⟩ := @functionRule_partnerFn "left" "right" "i32" t 0 s.context
    ⟨s.store, {}, {}, s.log⟩ left sig x right hsig hparams rfl (by decide) hright
  rw [hwalk, hrun]
  obtain ⟨types', hrun'⟩ := @functionRule_partnerFn "right" "left" "bool" v 3 s.context
    ⟨s.store, {}, ⟨#[.equal sig.ret x Span.none .body], types, #[], false⟩, s.log⟩ right sig' y left
    hsig' hparams' rfl (by decide) hleft
  refine ⟨_, hrun', rfl, rfl, ?_⟩
  simp [Constraint.equation?, hret, hx, hret', hy]

/-- With two names there are no errors. -/
theorem accepts_partners {s : CheckState} {t : Name} (hs : s.Waits (partners t v).functions)
    (hclean : s.Clean) (hne : t ≠ v) : Accepts {} (partners t v).functions s := by
  obtain ⟨finding, hwalk, hsites, hobligations, hequations⟩ := walk_partners hs hclean
  have hother : applyAll [(.named t, TypeTree.prim .i32)] (var (.named v)) = var (.named v) :=
    replace_eq_self (by simpa using hne.symm)
  have hsolves : SolvesInOrder 10000 [] [(var (.named t), TypeTree.prim .i32),
      (var (.named v), TypeTree.prim .bool)]
      [(.named v, TypeTree.prim .bool), (.named t, TypeTree.prim .i32)] := by
    refine .cons (SolvesInOrder.unify_var_ok (by decide) (not_occurs_prim _ _) (by simp [error])) ?_
    refine @SolvesInOrder.cons _ _ [(.named v, TypeTree.prim .bool)] _ _ _ _ ?_ .nil
    rw [List.append_nil, applyAll_nil, hother, applyAll_prim]
    exact SolvesInOrder.unify_var_ok (by decide) (not_occurs_prim _ _) (by simp [error])
  rw [Accepts, hwalk]
  refine ⟨rfl, [(.named v, TypeTree.prim .bool), (.named t, TypeTree.prim .i32)], ?_, ?_, ?_⟩
  · rw [hequations]
    exact hsolves
  · rw [hobligations]
    simp
  · rw [hsites]
    simp

end Partners

end ConstraintTyping
