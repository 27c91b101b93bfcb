import ConstraintTyping.Infer.Apply
import ConstraintTyping.Proofs.Infer.Written
import ConstraintTyping.Proofs.Solve.Triangular
import ConstraintTyping.Proofs.Types.Building

/-!
# Applying a solution

Every expression of a group gets the solved type of what was recorded for it.  Obligations that come
up on the way are settled: unless an error is reported, each is met by an implementation, or it is
retained because variables occur in it, or the error type occurs in it.
-/

namespace ConstraintTyping

open Store StoreM TypeTree

/-! ## Function types under a solution -/

/-- Replacing the variables of a type that is neither one nor qualified gives no qualified type. -/
theorem StoreM.isQualified_mapVars {st : Store} {ty : TypeId} (f : TypeId → TypeId)
    (hty : ty < st.size) (hvar : st.isVar ty = false) (h : (st.shape ty).isQualified = false) :
    ((mapVars f ty st).2.shape (mapVars f ty st).1).isQualified = false := by
  rw [mapVars, StateM.bind_apply, StateM.get_apply]
  by_cases hgeneric : st.isGeneric ty = true
  · rw [if_pos hgeneric, if_neg (by rw [hvar]; exact Bool.false_ne_true), StateM.bind_apply]
    have hbuilds : ((st.children ty).attach.mapM fun c => mapVars f c.1).Builds :=
      builds_mapM (f := fun c : { c // c ∈ st.children ty } => mapVars f c.1)
        (fun c => builds_mapVars f c.1) _
    have hshape := shape_of_le (hbuilds st).1 hty
    by_cases hsame :
        (((st.children ty).attach.mapM fun c => mapVars f c.1) st).1 = st.children ty
    · rw [if_pos hsame]
      exact hshape ▸ h
    · rw [if_neg hsame]
      exact isQualified_rebuild _ (hshape ▸ h)
  · rw [if_neg hgeneric]
    exact h

/-- A solution makes a function type of a function type. -/
theorem Bindings.isQualified_apply {st : Store} {b : Bindings} {ty : TypeId}
    {sig : Signature TypeId} (hb : b.Within st) (hty : ty < st.size)
    (hsig : st.shape ty = .function sig) :
    ((b.apply ty st).2.shape (b.apply ty st).1).isQualified = false := by
  have hfold : ∀ (ps : List (TypeId × TypeId)) (ty : TypeId) (st' : Store)
      (sig : Signature TypeTree), st ≤ st' → (∀ p ∈ ps, p ∈ b.pairs) → ty < st'.size →
      st'.tree ty = .mk (.function sig) → (st'.shape ty).isQualified = false →
      let r := ps.foldlM (fun ty (p : TypeId × TypeId) => replaceVar ty p.1 p.2) ty st'
      (r.2.shape r.1).isQualified = false := by
    intro ps
    induction ps with
    | nil => exact fun _ _ _ _ _ _ _ h => h
    | cons p ps ih =>
      intro ty st' sig hle hps hty htree hq
      obtain ⟨hv, hr⟩ := hb p (hps p List.mem_cons_self)
      obtain ⟨x, hx⟩ := Shape.isVar_iff.mp hv
      have hx' : st'.shape p.1 = .var x := (shape_of_le hle (lt_size_of_isVar hv)).trans hx
      obtain ⟨hsteps, hlt, hread⟩ := yields_replaceVar hx' (lt_size_of_le hle hr) hty
      rw [htree, replace, subst_mk rfl] at hread
      have hvar : st'.isVar ty = false := by
        rw [tree_of_not_qualified hq] at htree
        rw [Store.isVar, ← Shape.isVar_map st'.tree, TypeTree.mk.inj htree]
        rfl
      rw [List.foldlM_cons, StateM.bind_apply]
      exact ih _ _ _ (hle.trans hsteps.le) (fun q hq => hps q (List.mem_cons_of_mem p hq)) hlt
        hread (isQualified_mapVars _ hty hvar hq)
  have hq : (st.shape ty).isQualified = false := by rw [hsig]; rfl
  unfold Bindings.apply
  rw [StateM.bind_apply, StateM.get_apply]
  split
  · exact hfold _ ty st _ le_rfl (fun p hp => List.mem_reverse.mp hp) hty
      (by rw [tree_of_not_qualified hq, hsig]; rfl) hq
  · exact hq

theorem Bindings.signature?_apply {st : Store} {b : Bindings} {ty : TypeId}
    {sig : Signature TypeId} (hb : b.Within st) (hty : ty < st.size)
    (hsig : st.shape ty = .function sig) :
    ∃ sig', (b.apply ty st).2.signature? (b.apply ty st).1 = some sig' ∧
      sig'.map (b.apply ty st).2.tree = (sig.map st.tree).map (applyAll (b.read st)) := by
  obtain ⟨-, -, htree⟩ := Bindings.yields_apply hb hty
  rw [tree_of_not_qualified (isQualified_apply hb hty hsig),
    tree_of_not_qualified (by rw [hsig]; rfl), hsig, applyAll_mk _ rfl] at htree
  have hshape := TypeTree.mk.inj htree
  cases hs : (b.apply ty st).2.shape (b.apply ty st).1 with
  | function sig' =>
    rw [hs] at hshape
    exact ⟨sig', by rw [Store.signature?, hs]; rfl, Shape.function.inj hshape⟩
  | _ => rw [hs] at hshape; cases hshape

/-! ## States -/

namespace ApplyState

/-- An application goes on: types are added, errors are counted up, and what is retained stays. -/
structure Goes (s s' : ApplyState) : Prop where
  le : s.store ≤ s'.store
  nominals : s'.store.nominals = s.store.nominals
  errors : s.log.errorCount ≤ s'.log.errorCount
  retained : s.applied.retained ⊆ s'.applied.retained

variable {context : ApplyContext} {st : Store} {s s' s'' : ApplyState} {o : TypeTree}

theorem Goes.refl (s : ApplyState) : s.Goes s := ⟨le_rfl, rfl, le_rfl, List.Subset.refl _⟩

theorem Goes.trans (h : s.Goes s') (h' : s'.Goes s'') : s.Goes s'' where
  le := h.le.trans h'.le
  nominals := h'.nominals.trans h.nominals
  errors := h.errors.trans h'.errors
  retained := List.Subset.trans h.retained h'.retained

/-- The solution and what is retained speak of types of the store, and the error type is in nothing
that is retained. -/
structure Ready (context : ApplyContext) (s : ApplyState) : Prop where
  bindings : context.bindings.Within s.store
  retained : ∀ o ∈ s.applied.retained, s.store.Whole o

/-- The type that the solution makes of a type. -/
abbrev solvedTree (context : ApplyContext) (s : ApplyState) (ty : TypeId) : TypeTree :=
  applyAll (context.bindings.read s.store) (s.store.tree ty)

/-- An obligation is settled without an error.  If it was looked up, that was after a given store. -/
def Settled (context : ApplyContext) (st : Store) (o : TypeTree) (s : ApplyState) : Prop :=
  ∃ ty, ty < s.store.size ∧ s.store.tree ty = o ∧ (s.store.hasError ty = true ∨
    (s.store.isGeneric ty = true ∧ ty ∈ s.applied.retained) ∨
    s.store.isGeneric ty = false ∧ ∃ mid, st ≤ mid ∧ mid ≤ s.store ∧
      (context.traits.isImplemented ty mid).1 = true)

theorem Settled.of_goes (h : Settled context st o s) (hgoes : s.Goes s') :
    Settled context st o s' := by
  obtain ⟨ty, hty, htree, hcases⟩ := h
  refine ⟨ty, lt_size_of_le hgoes.le hty, (tree_of_le hgoes.le hty).trans htree, ?_⟩
  rw [hasError_of_le hgoes.le hty, isGeneric_of_le hgoes.le hty]
  rcases hcases with herror | ⟨hgeneric, hmem⟩ | ⟨hconcrete, mid, hmid, hle, himpl⟩
  · exact .inl herror
  · exact .inr (.inl ⟨hgeneric, hgoes.retained hmem⟩)
  · exact .inr (.inr ⟨hconcrete, mid, hmid, hle.trans hgoes.le, himpl⟩)

end ApplyState

namespace ApplyM

open ApplyState

variable {context : ApplyContext} {s : ApplyState} {α : Type}

/-- A part of an application that settles obligations goes on from a state.  If nothing was reported
before and nothing is reported then, `Q` holds where it ends; nothing is reported if `O` holds, that
the obligations are about variables. -/
structure Settles (context : ApplyContext) (act : ApplyM Unit) (s : ApplyState) (O : Prop)
    (Q : ApplyState → Prop) : Prop where
  goes : s.Goes (act context s).2
  ready : (act context s).2.Ready context
  exprTypes : (act context s).2.applied.exprTypes = s.applied.exprTypes
  clean : s.reported = [] → (act context s).2.log.errorCount = s.log.errorCount →
    (act context s).2.reported = [] ∧ Q (act context s).2
  quiet : O → (act context s).2.log = s.log

/-- A loop settles what each of its rounds settles. -/
theorem settles_forM (xs : List α) {f : α → ApplyM Unit} {O : α → Prop}
    {P : α → ApplyState → Prop} (hs : s.Ready context)
    (stable : ∀ x s₁ s₂, s₁.Goes s₂ → P x s₁ → P x s₂)
    (hf : ∀ x ∈ xs, ∀ s', s.Goes s' → s'.Ready context → Settles context (f x) s' (O x) (P x)) :
    Settles context (xs.forM f) s (∀ x ∈ xs, O x) fun s' => ∀ x ∈ xs, P x s' := by
  induction xs generalizing s with
  | nil => exact ⟨.refl s, hs, rfl, fun hrep _ => ⟨hrep, by simp⟩, fun _ => rfl⟩
  | cons x xs ih =>
    have hfirst := hf x List.mem_cons_self s (.refl s) hs
    have hrest := ih hfirst.ready fun y hy s' hgoes hs' =>
      hf y (List.mem_cons_of_mem x hy) s' (hfirst.goes.trans hgoes) hs'
    refine ⟨hfirst.goes.trans hrest.goes, hrest.ready, hrest.exprTypes.trans hfirst.exprTypes,
      fun hrep herr => ?_, fun hopen => ?_⟩
    · have h₁ := hfirst.goes.errors
      have h₂ := hrest.goes.errors
      change (xs.forM f context (f x context s).2).2.log.errorCount = _ at herr
      obtain ⟨hrep₁, hx⟩ := hfirst.clean hrep (by omega)
      obtain ⟨hrep₂, hxs⟩ := hrest.clean hrep₁ (by omega)
      exact ⟨hrep₂, List.forall_mem_cons.mpr ⟨stable x _ _ hrest.goes hx, hxs⟩⟩
    · obtain ⟨hx, hxs⟩ := List.forall_mem_cons.mp hopen
      exact (hrest.quiet hxs).trans (hfirst.quiet hx)

/-! ## Settling an obligation -/

/-- What becomes of an obligation. -/
inductive Outcome where
  /-- The error type occurs in it. -/
  | faulty
  /-- It is about variables. -/
  | retained
  /-- An implementation provides it. -/
  | met
  /-- Nothing provides it. -/
  | unmet
deriving DecidableEq

/-- The outcome of an obligation of a store. -/
def outcome (traits : TraitTable) (st : Store) (obligation : TypeId) : Outcome :=
  if st.hasError obligation then .faulty
  else if st.isGeneric obligation then .retained
  else if (traits.isImplemented obligation st).1 then .met
  else .unmet

theorem outcome_spec (traits : TraitTable) (st : Store) (o : TypeId) :
    match outcome traits st o with
    | .faulty => st.hasError o = true
    | .retained => st.hasError o = false ∧ st.isGeneric o = true
    | .met => st.isGeneric o = false ∧ (traits.isImplemented o st).1 = true
    | .unmet => st.isGeneric o = false ∧ (traits.isImplemented o st).1 = false := by
  unfold outcome
  cases st.hasError o <;> cases st.isGeneric o <;>
    cases (traits.isImplemented o st).1 <;> simp

/-- What settling an obligation does, by its outcome. -/
theorem discharge_apply (context : ApplyContext) (o : TypeId) (span : Span) (s : ApplyState) :
    let r := context.bindings.apply o s.store
    let met := context.traits.isImplemented r.1 r.2
    (discharge o span context s).2 = match outcome context.traits r.2 r.1 with
      | .faulty => { s with store := r.2 }
      | .retained =>
        if s.applied.retained.contains r.1 then { s with store := r.2 }
        else { s with store := r.2, applied.retained := s.applied.retained ++ [r.1] }
      | .met => { s with store := met.2 }
      | .unmet =>
        if s.reported.contains (r.1, span) then { s with store := met.2 }
        else { s with
          store := met.2
          reported := (r.1, span) :: s.reported
          log := s.log.report (unimplemented met.2 r.1 span) } := by
  intro r met
  have hrun : discharge o span context s = (ite (r.2.hasError r.1 = true) (pure ())
    (ite (r.2.isGeneric r.1 = true) _ _) : ApplyM Unit) context { s with store := r.2 } := rfl
  rw [hrun, outcome]
  split
  · rfl
  split
  · rfl
  have hmet : ∀ act : ApplyM Unit, (ite ((!met.1) = true) act (pure ()) : ApplyM Unit) context
      { s with store := met.2 } = if met.1 then ((), { s with store := met.2 })
        else act context { s with store := met.2 } := fun act => by
    cases met.1 <;> rfl
  refine (congrArg Prod.snd (hmet _)).trans ?_
  change _ = match (if met.1 = true then Outcome.met else Outcome.unmet) with
    | .faulty => _
    | .retained => _
    | .met => _
    | .unmet => _
  cases met.1 <;> rfl

/-- The store in which an obligation is read goes on. -/
theorem le_discharge (context : ApplyContext) (o : TypeId) (span : Span) (s : ApplyState) :
    (context.bindings.apply o s.store).2 ≤ (discharge o span context s).2.store := by
  have hrun := discharge_apply context o span s
  dsimp only at hrun
  set r := context.bindings.apply o s.store
  have hmet := (builds_isImplemented context.traits r.1 r.2).1
  rw [hrun]
  cases outcome context.traits r.2 r.1 with
  | faulty => exact le_rfl
  | met => exact hmet
  | retained =>
    dsimp only
    split <;> exact le_rfl
  | unmet =>
    dsimp only
    split <;> exact hmet

/-- Where only types are added nothing is reported. -/
theorem settles_of_store {act : ApplyM Unit} {st : Store} {O : Prop} {Q : ApplyState → Prop}
    (hs : s.Ready context) (hrun : (act context s).2 = { s with store := st }) (hle : s.store ≤ st)
    (hnom : st.nominals = s.store.nominals) (hQ : s.reported = [] → Q { s with store := st }) :
    Settles context act s O Q where
  goes := hrun ▸ ⟨hle, hnom, le_rfl, List.Subset.refl _⟩
  ready := hrun ▸ ⟨hs.bindings.of_le hle, fun o ho => (hs.retained o ho).of_le hle⟩
  exprTypes := by rw [hrun]
  clean hrep _ := hrun ▸ ⟨hrep, hQ hrep⟩
  quiet _ := by rw [hrun]

/-- Settling an obligation. -/
theorem settles_discharge {st : Store} {obligation : TypeId} (span : Span) (hle : st ≤ s.store)
    (hs : s.Ready context) (hlt : obligation < s.store.size) :
    Settles context (discharge obligation span) s (s.solvedTree context obligation).Generic
      (Settled context st (s.solvedTree context obligation)) := by
  obtain ⟨hsteps, hty, htree⟩ := Bindings.yields_apply hs.bindings hlt
  have hnom := (builds_apply context.bindings obligation s.store).2
  have hrun := discharge_apply context obligation span s
  dsimp only at hrun
  set r := context.bindings.apply obligation s.store
  obtain ⟨hmet, hmetNom⟩ := builds_isImplemented context.traits r.1 r.2
  have hspec := outcome_spec context.traits r.2 r.1
  cases houtcome : outcome context.traits r.2 r.1 with
  | faulty =>
    rw [houtcome] at hrun hspec
    exact settles_of_store hs hrun hsteps.le hnom fun _ => ⟨r.1, hty, htree, .inl hspec⟩
  | retained =>
    rw [houtcome] at hrun hspec
    obtain ⟨herror, hgeneric⟩ := hspec
    dsimp only at hrun
    split at hrun
    · next hmem =>
      exact settles_of_store hs hrun hsteps.le hnom fun _ =>
        ⟨r.1, hty, htree, .inr (.inl ⟨hgeneric, List.contains_iff_mem.mp hmem⟩)⟩
    · refine ⟨?_, ?_, ?_, fun hrep _ => ?_, fun _ => ?_⟩ <;> rw [hrun]
      · exact ⟨hsteps.le, hnom, le_rfl, List.subset_append_left _ _⟩
      · refine ⟨hs.bindings.of_le hsteps.le, fun o ho => ?_⟩
        rcases List.mem_append.mp ho with ho | ho
        · exact (hs.retained o ho).of_le hsteps.le
        · rw [List.mem_singleton.mp ho]
          exact ⟨hty, (hasError_eq_false_iff hty).mp herror⟩
      · exact ⟨hrep, r.1, hty, htree, .inr (.inl ⟨hgeneric,
          List.mem_append_right _ (List.mem_singleton_self _)⟩)⟩
  | met =>
    rw [houtcome] at hrun hspec
    obtain ⟨hconcrete, himpl⟩ := hspec
    refine settles_of_store hs hrun (hsteps.le.trans hmet) (hmetNom.trans hnom) fun _ =>
      ⟨r.1, lt_size_of_le hmet hty, (tree_of_le hmet hty).trans htree, .inr (.inr ⟨?_, r.2,
        hle.trans hsteps.le, hmet, himpl⟩)⟩
    exact (isGeneric_of_le hmet hty).trans hconcrete
  | unmet =>
    rw [houtcome] at hrun hspec
    dsimp only at hrun
    -- an error is on record: it was reported before or is now
    split at hrun
    · next hmem =>
      refine settles_of_store hs hrun (hsteps.le.trans hmet) (hmetNom.trans hnom) fun hnone => ?_
      rw [hnone] at hmem
      cases hmem
    · refine ⟨?_, ?_, ?_, fun _ herr => ?_, fun hopen => ?_⟩
      · exact hrun ▸ ⟨hsteps.le.trans hmet, hmetNom.trans hnom, Nat.le_succ _, List.Subset.refl _⟩
      · exact hrun ▸ ⟨hs.bindings.of_le (hsteps.le.trans hmet),
          fun o ho => (hs.retained o ho).of_le (hsteps.le.trans hmet)⟩
      · rw [hrun]
      · rw [hrun] at herr
        exact absurd herr (Nat.succ_ne_self _)
      · rw [solvedTree, ← htree, ← isGeneric_iff hty, hspec.1] at hopen
        cases hopen

/-! ## The expressions of a group -/

/-- What is on record in a state for an expression is the solved type of what was found for it. -/
def Rewritten (context : ApplyContext) (st : Store) (expr : ExprId) (s : ApplyState) : Prop :=
  ∀ ty, context.recorded[expr]? = some ty → ∃ ty', s.applied.exprTypes[expr]? = some ty' ∧
    ty' < s.store.size ∧ s.store.tree ty' = applyAll (context.bindings.read st) (st.tree ty)

/-- The obligations of a call are about variables. -/
def SiteOpen (context : ApplyContext) (st : Store) (expr : ExprId) : Prop :=
  ∀ site, context.callSites[expr]? = some site → ∀ sig,
    applyAll (context.bindings.read st) (st.tree site.callee) = .mk (.function sig) →
      ∀ o ∈ sig.givens, o.Generic

/-- The obligations of a call are settled. -/
def SiteSettled (context : ApplyContext) (st : Store) (expr : ExprId) (s : ApplyState) : Prop :=
  ∀ site, context.callSites[expr]? = some site → ∀ sig,
    applyAll (context.bindings.read st) (st.tree site.callee) = .mk (.function sig) →
      ∀ o ∈ sig.givens, Settled context st o s

/-- What an application works with speaks of types of a store. -/
structure Within (context : ApplyContext) (st : Store) : Prop where
  bindings : context.bindings.Within st
  triangular : Triangular (context.bindings.read st)
  recorded : ∀ {expr : ExprId} {ty : TypeId}, context.recorded[expr]? = some ty → ty < st.size
  sites : ∀ {expr : ExprId} {site : CallSite}, context.callSites[expr]? = some site →
    site.callee < st.size ∧ ∃ sig, st.shape site.callee = .function sig

/-- What comes of visiting expressions, one after the other.  Nothing is reported if `O` holds. -/
structure Visits (context : ApplyContext) (st : Store) (exprs : List ExprId) (O : Prop)
    (s s' : ApplyState) : Prop where
  goes : s.Goes s'
  ready : s'.Ready context
  only : ∀ id ty, s'.applied.exprTypes[id]? = some ty →
    id ∈ exprs ∨ s.applied.exprTypes[id]? = some ty
  rewritten : ∀ id, id ∈ exprs ∨ Rewritten context st id s → Rewritten context st id s'
  clean : s.reported = [] → s'.log.errorCount = s.log.errorCount →
    s'.reported = [] ∧ ∀ id ∈ exprs, SiteSettled context st id s'
  quiet : O → s'.log = s.log

theorem SiteSettled.of_goes {st : Store} {id : ExprId} {s' : ApplyState}
    (h : SiteSettled context st id s) (hgoes : s.Goes s') : SiteSettled context st id s' :=
  fun site hsite sig hsig o ho => (h site hsite sig hsig o ho).of_goes hgoes

/-- The state in which the solved type of an expression is on record. -/
def recordSolved (context : ApplyContext) (expr : ExprId) (s : ApplyState) : ApplyState :=
  match context.recorded[expr]? with
  | some ty =>
    let r := context.bindings.apply ty s.store
    { s with store := r.2, applied.exprTypes := s.applied.exprTypes.insert expr r.1 }
  | none => s

/-- Settle what a call asks for. -/
def settleSite : Option CallSite → ApplyM Unit
  | none => return ()
  | some site => do
    let callee ← solved site.callee
    if let some sig := (← get).store.signature? callee then
      sig.givens.forM fun given => discharge given site.span

theorem visit_read (context : ApplyContext) (expr : ExprId) (s : ApplyState) :
    visit expr context s = (do
      if let some ty := context.recorded[expr]? then
        let ty ← solved ty
        modify fun s => { s with applied.exprTypes := s.applied.exprTypes.insert expr ty }
      if let some site := context.callSites[expr]? then
        let callee ← solved site.callee
        if let some sig := (← get).store.signature? callee then
          sig.givens.forM fun given => discharge given site.span : ApplyM Unit) context s :=
  rfl

theorem visit_apply (context : ApplyContext) (expr : ExprId) (s : ApplyState) :
    visit expr context s =
      settleSite context.callSites[expr]? context (recordSolved context expr s) := by
  rw [visit_read]
  unfold recordSolved
  cases context.recorded[expr]? <;> cases context.callSites[expr]? <;> rfl

theorem settleSite_some {site : CallSite} {sig : Signature TypeId}
    (hsig : (context.bindings.apply site.callee s.store).2.signature?
      (context.bindings.apply site.callee s.store).1 = some sig) :
    settleSite (some site) context s = (sig.givens.forM fun given => discharge given site.span)
      context { s with store := (context.bindings.apply site.callee s.store).2 } := by
  set r := context.bindings.apply site.callee s.store with hr
  have hread : settleSite (some site) context s = (do
      if let some sig := r.2.signature? r.1 then
        sig.givens.forM fun given => discharge given site.span : ApplyM Unit) context
      { s with store := r.2 } := rfl
  rw [hread, hsig]

section Visit

variable {st : Store} (hcontext : Within context st) (hle : st ≤ s.store) (hs : s.Ready context)
include hcontext hle hs

theorem settles_settleSite (expr : ExprId) :
    Settles context (settleSite context.callSites[expr]?) s (SiteOpen context st expr)
      (SiteSettled context st expr) := by
  cases hsite : context.callSites[expr]? with
  | none =>
    refine ⟨.refl s, hs, rfl, fun hrep _ => ⟨hrep, fun site hsite' => ?_⟩, fun _ => rfl⟩
    rw [hsite] at hsite'
    cases hsite'
  | some site =>
    obtain ⟨hcallee, sig₀, hshape⟩ := hcontext.sites hsite
    have hlt := lt_size_of_le hle hcallee
    have hshape' := (shape_of_le hle hcallee).trans hshape
    obtain ⟨sig, hsig, hread⟩ := Bindings.signature?_apply hs.bindings hlt hshape'
    obtain ⟨hsteps, hty, htree⟩ := Bindings.yields_apply hs.bindings hlt
    have hnom := (builds_apply context.bindings site.callee s.store).2
    have hrun := settleSite_some hsig
    set r := context.bindings.apply site.callee s.store
    have hready : ApplyState.Ready context { s with store := r.2 } :=
      ⟨hs.bindings.of_le hsteps.le, fun o ho => (hs.retained o ho).of_le hsteps.le⟩
    have hgivens : ∀ g ∈ sig.givens, g < r.2.size ∧
        ∃ t, r.2.tree g = applyAll (context.bindings.read st) t := by
      intro g hg
      constructor
      · refine lt_size_of_mem_children hty ?_
        show g ∈ (r.2.shape r.1).children
        rw [shape_of_signature? hsig]
        simp [Shape.children, Signature.children, hg]
      · have hmem : r.2.tree g ∈ (sig.map r.2.tree).givens := List.mem_map_of_mem hg
        rw [hread, Bindings.read_of_le hcontext.bindings hle] at hmem
        obtain ⟨t, -, ht⟩ := List.mem_map.mp hmem
        exact ⟨t, ht.symm⟩
    have hloop : Settles context (sig.givens.forM fun given => discharge given site.span)
        { s with store := r.2 } (∀ g ∈ sig.givens, (r.2.tree g).Generic)
        fun s' => ∀ g ∈ sig.givens, Settled context st (r.2.tree g) s' := by
      refine settles_forM sig.givens hready (fun g s₁ s₂ hgoes hset => hset.of_goes hgoes) ?_
      intro g hg s' hgoes hs'
      obtain ⟨hlt, t, ht⟩ := hgivens g hg
      have hset := settles_discharge site.span (hle.trans (hsteps.le.trans hgoes.le)) hs'
        (lt_size_of_le hgoes.le hlt)
      -- a solved type is solved for good
      have hsolved : s'.solvedTree context g = r.2.tree g := by
        rw [solvedTree, tree_of_le hgoes.le hlt, ht,
          Bindings.read_of_le hcontext.bindings (hle.trans (hsteps.le.trans hgoes.le))]
        exact hcontext.triangular.applyAll_applyAll t
      rw [hsolved] at hset
      exact hset
    have hgoes : s.Goes { s with store := r.2 } :=
      ⟨hsteps.le, hnom, le_rfl, List.Subset.refl _⟩
    have htree' : applyAll (context.bindings.read st) (st.tree site.callee) =
        .mk (.function (sig.map r.2.tree)) := by
      rw [← Bindings.read_of_le hcontext.bindings hle, ← tree_of_le hle hcallee,
        tree_of_not_qualified (by rw [hshape']; rfl), hshape', applyAll_mk _ rfl, hread]
      rfl
    refine ⟨?_, ?_, ?_, ?_, fun hopen => ?_⟩ <;> rw [hrun]
    · exact hgoes.trans hloop.goes
    · exact hloop.ready
    · exact hloop.exprTypes
    · intro hrep herr
      obtain ⟨hrep', hset⟩ := hloop.clean hrep herr
      refine ⟨hrep', fun site' hsite' sig' hsig' o ho => ?_⟩
      obtain rfl := Option.some.inj (hsite.symm.trans hsite')
      obtain rfl := Shape.function.inj (TypeTree.mk.inj (htree'.symm.trans hsig'))
      obtain ⟨g, hg, rfl⟩ := List.mem_map.mp ho
      exact hset g hg
    · exact hloop.quiet fun g hg => hopen site hsite _ htree' _ (List.mem_map_of_mem hg)

theorem visits_visit (expr : ExprId) :
    Visits context st [expr] (SiteOpen context st expr) s (visit expr context s).2 := by
  have hrecord : s.Goes (recordSolved context expr s) ∧
      (recordSolved context expr s).Ready context ∧
      (recordSolved context expr s).reported = s.reported ∧
      (recordSolved context expr s).log = s.log ∧
      (∀ id ty, (recordSolved context expr s).applied.exprTypes[id]? = some ty →
        id ∈ [expr] ∨ s.applied.exprTypes[id]? = some ty) ∧
      ∀ id, id ∈ [expr] ∨ Rewritten context st id s →
        Rewritten context st id (recordSolved context expr s) := by
    unfold recordSolved
    cases hrec : context.recorded[expr]? with
    | none =>
      refine ⟨.refl s, hs, rfl, rfl, fun _ _ => .inr, fun id hid => hid.elim (fun hid => ?_) fun h => h⟩
      intro ty hty
      rw [List.mem_singleton.mp hid, hrec] at hty
      cases hty
    | some ty =>
      have hlt := hcontext.recorded hrec
      obtain ⟨hsteps, hty, htree⟩ := Bindings.yields_apply hs.bindings (lt_size_of_le hle hlt)
      have hnom := (builds_apply context.bindings ty s.store).2
      rw [Bindings.read_of_le hcontext.bindings hle, tree_of_le hle hlt] at htree
      refine ⟨⟨hsteps.le, hnom, le_rfl, List.Subset.refl _⟩, ⟨hs.bindings.of_le hsteps.le,
        fun o ho => (hs.retained o ho).of_le hsteps.le⟩, rfl, rfl, fun id ty' h => ?_,
        fun id hid ty' hty' => ?_⟩
      · change (s.applied.exprTypes.insert expr _)[id]? = some ty' at h
        rw [Std.HashMap.getElem?_insert] at h
        split at h
        · next heq => exact .inl (by simp [eq_of_beq heq])
        · exact .inr h
      · show ∃ t, (s.applied.exprTypes.insert expr _)[id]? = some t ∧ _
        rw [Std.HashMap.getElem?_insert]
        by_cases heq : expr = id
        · subst heq
          obtain rfl := Option.some.inj (hrec.symm.trans hty')
          exact ⟨_, by simp, hty, htree⟩
        · obtain ⟨t, ht, hlt', htree'⟩ := hid.resolve_left (by simpa using Ne.symm heq) ty' hty'
          refine ⟨t, ?_, lt_size_of_le hsteps.le hlt', (tree_of_le hsteps.le hlt').trans htree'⟩
          rw [if_neg (by simpa using heq)]
          exact ht
  obtain ⟨hgoes, hready, hrep, hlog, honly, hrewritten⟩ := hrecord
  have hsettles := settles_settleSite hcontext (hle.trans hgoes.le) hready expr
  rw [visit_apply]
  refine ⟨hgoes.trans hsettles.goes, hsettles.ready, fun id ty h => honly id ty ?_,
    fun id hid ty hty => ?_, fun hnone herr => ?_,
    fun hopen => (hsettles.quiet hopen).trans hlog⟩
  · rw [← hsettles.exprTypes]
    exact h
  · obtain ⟨ty', hty', hlt, htree⟩ := hrewritten id hid ty hty
    refine ⟨ty', hsettles.exprTypes ▸ hty', lt_size_of_le hsettles.goes.le hlt, ?_⟩
    rw [tree_of_le hsettles.goes.le hlt]
    exact htree
  · obtain ⟨hrep', hset⟩ := hsettles.clean (hrep.trans hnone) (by rw [hlog]; exact herr)
    exact ⟨hrep', by simpa using hset⟩

end Visit

theorem Visits.trans {st : Store} {exprs exprs' : List ExprId} {O O' : Prop} {s' s'' : ApplyState}
    (h : Visits context st exprs O s s') (h' : Visits context st exprs' O' s' s'') :
    Visits context st (exprs ++ exprs') (O ∧ O') s s'' where
  goes := h.goes.trans h'.goes
  ready := h'.ready
  only id ty hty := by
    rcases h'.only id ty hty with hid | hty
    · exact .inl (List.mem_append_right _ hid)
    · exact (h.only id ty hty).imp_left (List.mem_append_left _)
  rewritten id hid := by
    refine h'.rewritten id ?_
    rcases hid with hid | hid
    · exact (List.mem_append.mp hid).symm.imp_right fun hid => h.rewritten id (.inl hid)
    · exact .inr (h.rewritten id (.inr hid))
  clean hrep herr := by
    have h₁ := h.goes.errors
    have h₂ := h'.goes.errors
    obtain ⟨hrep₁, hset⟩ := h.clean hrep (by omega)
    obtain ⟨hrep₂, hset'⟩ := h'.clean hrep₁ (by omega)
    exact ⟨hrep₂, List.forall_mem_append.mpr ⟨fun id hid => (hset id hid).of_goes h'.goes, hset'⟩⟩
  quiet hopen := (h'.quiet hopen.2).trans (h.quiet hopen.1)

theorem visits_forM {st : Store} (exprs : List ExprId) (hcontext : Within context st)
    (hle : st ≤ s.store) (hs : s.Ready context) :
    Visits context st exprs (∀ id ∈ exprs, SiteOpen context st id) s
      (exprs.forM visit context s).2 := by
  induction exprs generalizing s with
  | nil => exact ⟨.refl s, hs, fun _ _ => .inr, fun _ h => h.resolve_left (by simp),
      fun hrep _ => ⟨hrep, by simp⟩, fun _ => rfl⟩
  | cons expr exprs ih =>
    have hfirst := visits_visit hcontext hle hs expr
    rw [List.forall_mem_cons]
    exact hfirst.trans (ih (hle.trans hfirst.goes.le) hfirst.ready)

/-- What applying a solution to a group comes to. -/
structure Applies (context : ApplyContext) (st : Store) (exprs : List ExprId)
    (obligations : List (TypeId × Span)) (s s' : ApplyState) : Prop
    extends Visits context st exprs ((∀ id ∈ exprs, SiteOpen context st id) ∧ ∀ o ∈ obligations,
      (applyAll (context.bindings.read st) (st.tree o.1)).Generic) s s' where
  settled : s.reported = [] → s'.log.errorCount = s.log.errorCount →
    ∀ o ∈ obligations, Settled context st (applyAll (context.bindings.read st) (st.tree o.1)) s'

theorem applies_applyTo {st : Store} (exprs : List ExprId) {obligations : List (TypeId × Span)}
    (hcontext : Within context st) (hobligations : ∀ o ∈ obligations, o.1 < st.size)
    (hle : st ≤ s.store) (hs : s.Ready context) :
    Applies context st exprs obligations s (applyTo exprs obligations context s).2 := by
  have hvisits := visits_forM exprs hcontext hle hs
  have hloop : Settles context (obligations.forM fun o => discharge o.1 o.2)
      (exprs.forM visit context s).2
      (∀ o ∈ obligations, (applyAll (context.bindings.read st) (st.tree o.1)).Generic)
      fun s' => ∀ o ∈ obligations,
        Settled context st (applyAll (context.bindings.read st) (st.tree o.1)) s' := by
    refine settles_forM obligations hvisits.ready (fun o s₁ s₂ hgoes hset => hset.of_goes hgoes) ?_
    intro o ho s' hgoes hs'
    have hle' := hle.trans (hvisits.goes.trans hgoes).le
    have hset := settles_discharge o.2 hle' hs' (lt_size_of_le hle' (hobligations o ho))
    rw [solvedTree, Bindings.read_of_le hcontext.bindings hle',
      tree_of_le hle' (hobligations o ho)] at hset
    exact hset
  have h₁ := hvisits.goes.errors
  have h₂ := hloop.goes.errors
  refine ⟨⟨hvisits.goes.trans hloop.goes, hloop.ready, fun id ty hty => hvisits.only id ty ?_,
    fun id hid ty hty => ?_, fun hrep herr => ?_,
    fun hopen => (hloop.quiet hopen.2).trans (hvisits.quiet hopen.1)⟩, fun hrep herr => ?_⟩
  · rw [← hloop.exprTypes]
    exact hty
  · obtain ⟨ty', hty', hlt, htree⟩ := hvisits.rewritten id hid ty hty
    exact ⟨ty', hloop.exprTypes ▸ hty', lt_size_of_le hloop.goes.le hlt,
      (tree_of_le hloop.goes.le hlt).trans htree⟩
  all_goals
    change ((obligations.forM fun o => discharge o.1 o.2) context
      (exprs.forM visit context s).2).2.log.errorCount = _ at herr
    obtain ⟨hrep₁, hset⟩ := hvisits.clean hrep (by omega)
    obtain ⟨hrep₂, hset'⟩ := hloop.clean hrep₁ (by omega)
  · exact ⟨hrep₂, fun id hid => (hset id hid).of_goes hloop.goes⟩
  · exact hset'

end ApplyM

end ConstraintTyping
