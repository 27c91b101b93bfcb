import ConstraintTyping.Proofs.Infer.Group
import ConstraintTyping.Proofs.Renaming.Applying
import ConstraintTyping.Proofs.Traits.Instances
import ConstraintTyping.Proofs.Types.Uniquing

/-!
# What becomes of obligations

Obligations come from the callees of calls, in the order of the walk, and from the solver.  Each is
read through the solution and then has one of four outcomes, which only depends on its type: it is
dropped because the error type occurs in it, retained because variables do, met by an implementation,
or reported.  Types are retained once; a report is made once for a type at a place.

While an application runs, it adds types.  Read in the store that it ends with, all obligations and
their outcomes are what they were when their turns came, so that the whole run is one fold over the
list of its obligations.
-/

namespace ConstraintTyping

open Store StoreM TypeTree

/-! ## Reading through a solution again -/

theorem StoreM.repeats_replaceVars {st : Store} (ps : List (TypeId × TypeId)) {ty : TypeId}
    (hps : ∀ p ∈ ps, st.isVar p.1 = true ∧ p.2 < st.size) (hty : ty < st.size) :
    (ps.foldlM (fun ty (p : TypeId × TypeId) => replaceVar ty p.1 p.2) ty).Repeats st := by
  induction ps generalizing st ty with
  | nil => exact repeats_pure ty
  | cons p ps ih =>
    obtain ⟨⟨hv, hr⟩, hps⟩ := List.forall_mem_cons.mp hps
    obtain ⟨x, hx⟩ := Shape.isVar_iff.mp hv
    obtain ⟨hsteps, hlt, -⟩ := yields_replaceVar hx hr hty
    rw [List.foldlM_cons]
    have hreplaced : ∀ v, v < st.size → (if v = p.1 then p.2 else v) < st.size := fun v hv => by
      split
      · exact hr
      · exact hv
    refine (repeats_mapVars_from hreplaced le_rfl hty).bind (ih (fun q hq => ?_) hlt)
      (builds_foldlM (fun _ _ => builds_replaceVar _ _ _) ps)
    obtain ⟨hqv, hqr⟩ := hps q hq
    exact ⟨(isVar_of_le hsteps.le (lt_size_of_isVar hqv)).trans hqv, lt_size_of_le hsteps.le hqr⟩

/-- A type that was read through bindings is found again. -/
theorem Bindings.repeats_apply {st : Store} {b : Bindings} {ty : TypeId} (hb : b.Within st)
    (hty : ty < st.size) : (b.apply ty).Repeats st := by
  have hbuilds := builds_apply b ty
  unfold Bindings.apply at hbuilds ⊢
  refine repeats_get_bind hbuilds (fun st' hle => by rw [isGeneric_of_le hle hty]) ?_
  split
  · exact repeats_replaceVars _ (fun p hp => hb p (List.mem_reverse.mp hp)) hty
  · exact repeats_pure ty

namespace ApplyM

open ApplyState

variable {traits : TraitTable} {context : ApplyContext} {st st' : Store} {s : ApplyState} {α : Type}

/-! ## Outcomes -/

theorem not_generic_of_unmet {o : TypeId} (h : outcome traits st o = .unmet) :
    st.isGeneric o = false := by
  unfold outcome at h
  split_ifs at h with _ hg
  simpa using hg

/-- An obligation over variables is retained. -/
theorem outcome_eq_retained {o : TypeId} (ho : o < st.size) (hfaultless : (st.tree o).Faultless)
    (hgeneric : (st.tree o).Generic) : outcome traits st o = .retained := by
  rw [outcome, (hasError_eq_false_iff ho).mpr hfaultless, (isGeneric_iff ho).mpr hgeneric]
  rfl

/-- An obligation without variables that nothing implements is reported. -/
theorem outcome_eq_unmet {o : TypeId} (ho : o < st.size) (hfaultless : (st.tree o).Faultless)
    (hgeneric : ¬ (st.tree o).Generic) (hunmet : (traits.isImplemented o st).1 = false) :
    outcome traits st o = .unmet := by
  have hclosed : st.isGeneric o = false :=
    Bool.eq_false_iff.mpr fun h => hgeneric ((isGeneric_iff ho).mp h)
  rw [outcome, (hasError_eq_false_iff ho).mpr hfaultless, hclosed, hunmet]
  rfl

/-- What the settling of obligations has come to. -/
structure Tally where
  retained : List TypeId
  /-- Obligations already reported, with their places. -/
  reported : List (TypeId × Span)
  log : DiagnosticLog

/-- What has come of an application. -/
def tally (s : ApplyState) : Tally := ⟨s.applied.retained, s.reported, s.log⟩

/-- One more obligation of a store is settled. -/
def Tally.settle (traits : TraitTable) (st : Store) (t : Tally) (o : TypeId × Span) : Tally :=
  match outcome traits st o.1 with
  | .faulty | .met => t
  | .retained => if t.retained.contains o.1 then t else { t with retained := t.retained ++ [o.1] }
  | .unmet =>
    if t.reported.contains o then t
    else { t with reported := o :: t.reported, log := t.log.report (unimplemented st o.1 o.2) }

namespace Tally

variable {t : Tally} {o : TypeId × Span}

theorem settle_faulty (h : outcome traits st o.1 = .faulty) : t.settle traits st o = t := by
  rw [settle, h]

theorem settle_met (h : outcome traits st o.1 = .met) : t.settle traits st o = t := by
  rw [settle, h]

theorem settle_retained (h : outcome traits st o.1 = .retained) : t.settle traits st o =
    if t.retained.contains o.1 then t else { t with retained := t.retained ++ [o.1] } := by
  rw [settle, h]

theorem settle_unmet (h : outcome traits st o.1 = .unmet) : t.settle traits st o =
    if t.reported.contains o then t
    else { t with reported := o :: t.reported, log := t.log.report (unimplemented st o.1 o.2) } := by
  rw [settle, h]

/-- Obligations are settled in order: retained are the types that are about variables and new, reported
are the obligations that nothing provides and that are new. -/
theorem foldl_settle (os : List (TypeId × Span)) (t : Tally) :
    let t' := os.foldl (Tally.settle traits st) t
    t'.retained = t.retained ++ newTo t.retained
      ((os.filter fun o => outcome traits st o.1 = .retained).map Prod.fst) ∧
    t'.log = (newTo t.reported (os.filter fun o => outcome traits st o.1 = .unmet)).foldl
      (fun log o => log.report (unimplemented st o.1 o.2)) t.log := by
  induction os generalizing t with
  | nil => simp [newTo]
  | cons o os ih =>
    rw [List.foldl_cons, List.filter_cons, List.filter_cons]
    cases houtcome : outcome traits st o.1 with
    | faulty => simpa [settle_faulty houtcome] using ih t
    | met => simpa [settle_met houtcome] using ih t
    | retained =>
      rw [settle_retained houtcome]
      simp only [reduceCtorEq, decide_true, decide_false, if_true, List.map_cons]
      by_cases hmem : o.1 ∈ t.retained
      · rw [if_pos (by simpa using hmem), newTo_cons_of_mem hmem]
        exact ih t
      · rw [if_neg (by simpa using hmem), newTo_cons_of_not_mem (t.retained ++ [o.1]) hmem
          fun p => by simp [or_comm]]
        simpa using ih { t with retained := t.retained ++ [o.1] }
    | unmet =>
      rw [settle_unmet houtcome]
      simp only [reduceCtorEq, decide_true, decide_false, if_true]
      by_cases hmem : o ∈ t.reported
      · rw [if_pos (by simpa using hmem), newTo_cons_of_mem hmem]
        exact ih t
      · rw [if_neg (by simpa using hmem), newTo_cons_of_not_mem (o :: t.reported) hmem
          fun p => by simp]
        exact ih { t with
          reported := o :: t.reported, log := t.log.report (unimplemented st o.1 o.2) }

end Tally

/-- The outcome of an obligation stays the same when types are added. -/
theorem outcome_of_le {o : TypeId} (himpls : ∀ e ∈ traits.impls.toList, e.ty < st.size)
    (ho : o < st.size) (hle : st ≤ st') : outcome traits st' o = outcome traits st o := by
  unfold outcome
  rw [hasError_of_le hle ho, isGeneric_of_le hle ho]
  split
  · rfl
  split
  · rfl
  · next hg => rw [TraitTable.isImplemented_of_le himpls ho (by simpa using hg) hle]

theorem unimplemented_of_le {o : TypeId} (ho : o < st.size) (hg : st.isGeneric o = false)
    (hle : st ≤ st') (span : Span) : unimplemented st' o span = unimplemented st o span :=
  Renaming.unimplemented_eq_of_not_generic (w := (st, st'))
    (Renaming.alike_refl le_rfl hle ho) hg span

/-! ## Runs as folds -/

/-- What an application works with is a solution, and implementations and calls of a store. -/
structure Draws (context : ApplyContext) (st : Store) : Prop where
  solution : Solution.Ordered { bindings := context.bindings } st
  impls : ∀ e ∈ context.traits.impls.toList, e.ty < st.size
  sites : ∀ {id : ExprId} {site : CallSite}, context.callSites[id]? = some site → site.callee < st.size

theorem Draws.of_le (h : Draws context st) (hle : st ≤ st') : Draws context st' where
  solution := h.solution.of_le hle
  impls e he := lt_size_of_le hle (h.impls e he)
  sites hsite := lt_size_of_le hle (h.sites hsite)

/-- A part of an application settles the obligations that `D` finds in every store after it. -/
structure Tallies (context : ApplyContext) (act : ApplyM Unit) (s : ApplyState)
    (D : Store → List (TypeId × Span)) : Prop where
  le : s.store ≤ (act context s).2.store
  tally : ∀ st, (act context s).2.store ≤ st →
    tally (act context s).2 = (D st).foldl (Tally.settle context.traits st) (tally s)

variable {D D' : Store → List (TypeId × Span)}

theorem tallies_pure : Tallies context (pure ()) s fun _ => [] := ⟨le_rfl, fun _ _ => rfl⟩

theorem Tallies.congr {act : ApplyM Unit} (h : Tallies context act s D)
    (hD : ∀ st, (act context s).2.store ≤ st → D st = D' st) : Tallies context act s D' :=
  ⟨h.le, fun st hle => hD st hle ▸ h.tally st hle⟩

theorem Tallies.seq {act act' : ApplyM Unit} (h : Tallies context act s D)
    (h' : Tallies context act' (act context s).2 D') :
    Tallies context (act >>= fun _ => act') s fun st => D st ++ D' st where
  le := h.le.trans h'.le
  tally st hle := by
    rw [List.foldl_append, ← h.tally st (h'.le.trans hle)]
    exact h'.tally st hle

theorem tallies_forM {f : α → ApplyM Unit} {D : α → Store → List (TypeId × Span)} (xs : List α)
    (h : ∀ x ∈ xs, ∀ s', s.store ≤ s'.store → Tallies context (f x) s' (D x)) :
    Tallies context (xs.forM f) s fun st => xs.flatMap fun x => D x st := by
  induction xs generalizing s with
  | nil => exact tallies_pure
  | cons x xs ih =>
    have hfirst := h x List.mem_cons_self s le_rfl
    exact hfirst.seq (ih fun y hy s' hle => h y (List.mem_cons_of_mem x hy) s' (hfirst.le.trans hle))

/-- Every member of a list has its turn in a loop. -/
theorem exists_turn {f : α → ApplyM Unit} {D : α → Store → List (TypeId × Span)} {xs : List α} {x : α}
    (h : ∀ x ∈ xs, ∀ s', s.store ≤ s'.store → Tallies context (f x) s' (D x)) (hx : x ∈ xs) :
    ∃ s', s.store ≤ s'.store ∧ (f x context s').2.store ≤ (xs.forM f context s).2.store := by
  induction xs generalizing s with
  | nil => cases hx
  | cons y ys ih =>
    have hfirst := h y List.mem_cons_self s le_rfl
    have hrest : ∀ z ∈ ys, ∀ s', (f y context s).2.store ≤ s'.store → Tallies context (f z) s' (D z) :=
      fun z hz s' hle => h z (List.mem_cons_of_mem y hz) s' (hfirst.le.trans hle)
    rcases List.mem_cons.mp hx with rfl | hx
    · exact ⟨s, le_rfl, (tallies_forM ys hrest).le⟩
    · obtain ⟨s', hle, hturn⟩ := ih hrest hx
      exact ⟨s', hfirst.le.trans hle, hturn⟩

/-- An obligation is settled as what the solution makes of it. -/
theorem tallies_discharge (hcontext : Draws context s.store) {o : TypeId} (ho : o < s.store.size)
    (span : Span) :
    Tallies context (discharge o span) s fun st => [((context.bindings.apply o st).1, span)] := by
  obtain ⟨hsteps, hty, -⟩ := Bindings.yields_apply hcontext.solution.within ho
  have hagain : (context.bindings.apply o).Repeats s.store :=
    Bindings.repeats_apply hcontext.solution.within ho
  have himpls := (hcontext.of_le hsteps.le).impls
  have hgoes := le_discharge context o span s
  have hrun := discharge_apply context o span s
  dsimp only at hrun
  refine ⟨hsteps.le.trans hgoes, fun st hle => ?_⟩
  have hle' := hgoes.trans hle
  have hsame := outcome_of_le himpls hty hle'
  rw [List.foldl_cons, List.foldl_nil, hagain st hle']
  dsimp only at hty hsame hle'
  set r := context.bindings.apply o s.store with hr
  rw [hrun] at hle ⊢
  cases houtcome : outcome context.traits r.2 r.1 with
  | faulty => exact (Tally.settle_faulty (o := (r.1, span)) (hsame.trans houtcome)).symm
  | met => exact (Tally.settle_met (o := (r.1, span)) (hsame.trans houtcome)).symm
  | retained =>
    rw [Tally.settle_retained (o := (r.1, span)) (hsame.trans houtcome)]
    exact apply_ite tally _ _ _
  | unmet =>
    have hmet := (builds_isImplemented context.traits r.1 r.2).1
    have hle : (context.traits.isImplemented r.1 r.2).2 ≤ st := by
      rw [houtcome] at hle
      dsimp only at hle
      split at hle <;> exact hle
    have hgeneric : (context.traits.isImplemented r.1 r.2).2.isGeneric r.1 = false :=
      (isGeneric_of_le hmet hty).trans (not_generic_of_unmet houtcome)
    rw [Tally.settle_unmet (o := (r.1, span)) (hsame.trans houtcome),
      unimplemented_of_le (lt_size_of_le hmet hty) hgeneric hle]
    exact apply_ite tally _ _ _

/-! ## Calls -/

/-- What a function type asks for; other types ask for nothing. -/
def givensOf (st : Store) (ty : TypeId) : List TypeId := (st.signature? ty).elim [] Signature.givens

theorem givensOf_of_le {ty : TypeId} (hle : st ≤ st') (hty : ty < st.size) :
    givensOf st' ty = givensOf st ty := by
  rw [givensOf, givensOf, FindM.signature?_of_le hle hty]

/-- What is asked for is a constituent, under no qualifier. -/
theorem constituent_of_mem_givensOf {ty given : TypeId} (h : given ∈ givensOf st ty) :
    (st.shape ty).isQualified = false ∧ given ∈ st.children ty := by
  unfold givensOf at h
  cases hsig : st.signature? ty with
  | none => simp [hsig] at h
  | some sig =>
    rw [hsig] at h
    have hshape := shape_of_signature? hsig
    refine ⟨by rw [hshape]; rfl, ?_⟩
    show given ∈ (st.shape ty).children
    rw [hshape]
    exact List.mem_cons_of_mem _ (List.mem_append_right _ h)

/-- No variable of a solution is left in what it makes of a callee, so what that asks for is read as
it is. -/
theorem apply_given {sol : Solution} (hsol : sol.Ordered st) {callee given : TypeId}
    (hcallee : callee < st.size)
    (h : given ∈ givensOf (sol.bindings.apply callee st).2 (sol.bindings.apply callee st).1)
    (hle : (sol.bindings.apply callee st).2 ≤ st') : sol.bindings.apply given st' = (given, st') := by
  obtain ⟨hsteps, hty, -⟩ := Bindings.yields_apply hsol.within hcallee
  obtain ⟨hqualified, hchild⟩ := constituent_of_mem_givensOf h
  refine Bindings.apply_eq_self fun p hp x hx hoccurs => ?_
  rw [tree_of_le hle (lt_size_of_mem_children hty hchild)] at hoccurs
  rw [shape_of_le (hsteps.le.trans hle) (lt_size_of_isVar (hsol.within p hp).1)] at hx
  refine hsol.not_occurs_apply hcallee (List.mem_map_of_mem hp)
    ((shape_of_le hsteps.le (lt_size_of_shape_var hx)).trans hx) ?_
  rw [tree_of_not_qualified hqualified, occurs_mk, Shape.children_map]
  exact .inr ⟨_, List.mem_map_of_mem hchild, hoccurs⟩

/-- What the callee of a call asks for, at the place of the call. -/
def asked (b : Bindings) (st : Store) (site : CallSite) : List (TypeId × Span) :=
  (givensOf st (b.apply site.callee st).1).map fun given => (given, site.span)

/-- What is left of settling a call once its callee is solved. -/
theorem settleSite_solved (site : CallSite) (context : ApplyContext) (s : ApplyState) :
    let r := context.bindings.apply site.callee s.store
    settleSite (some site) context s = (do
      if let some sig := r.2.signature? r.1 then
        sig.givens.forM fun given => discharge given site.span : ApplyM Unit) context
      { s with store := r.2 } := rfl

theorem settleSite_apply (site : CallSite) (context : ApplyContext) (s : ApplyState) :
    let r := context.bindings.apply site.callee s.store
    settleSite (some site) context s = ((givensOf r.2 r.1).forM fun given =>
      discharge given site.span) context { s with store := r.2 } := by
  intro r
  rw [settleSite_solved, givensOf]
  cases r.2.signature? r.1 <;> rfl

/-- The store in which a callee is read goes on. -/
theorem settleSite_goes (hcontext : Draws context s.store) {site : CallSite}
    (hcallee : site.callee < s.store.size) :
    let r := context.bindings.apply site.callee s.store
    r.2 ≤ (settleSite (some site) context s).2.store ∧
    Tallies context (settleSite (some site)) s fun st => (givensOf r.2 r.1).flatMap fun given =>
      [((context.bindings.apply given st).1, site.span)] := by
  have hrun := settleSite_apply site context s
  obtain ⟨hsteps, hty, -⟩ := Bindings.yields_apply hcontext.solution.within hcallee
  dsimp only at hsteps hty hrun ⊢
  set r := context.bindings.apply site.callee s.store
  have hloop : Tallies context ((givensOf r.2 r.1).forM fun given => discharge given site.span)
      { s with store := r.2 } fun st => (givensOf r.2 r.1).flatMap fun given =>
        [((context.bindings.apply given st).1, site.span)] := by
    refine tallies_forM _ fun given hgiven s' hle => ?_
    have hlt := lt_size_of_mem_children hty (constituent_of_mem_givensOf hgiven).2
    exact tallies_discharge (hcontext.of_le (hsteps.le.trans hle)) (lt_size_of_le hle hlt) site.span
  refine ⟨?_, ?_, fun st hle => ?_⟩
  · rw [hrun]
    exact hloop.le
  · rw [hrun]
    exact hsteps.le.trans hloop.le
  · rw [hrun] at hle ⊢
    exact hloop.tally st hle

theorem tallies_settleSite (hcontext : Draws context s.store) (id : ExprId) :
    Tallies context (settleSite context.callSites[id]?) s fun st =>
      context.callSites[id]?.toList.flatMap (asked context.bindings st) := by
  cases hsite : context.callSites[id]? with
  | none => exact tallies_pure
  | some site =>
    have hsol := hcontext.solution
    have hcallee := hcontext.sites hsite
    have hty := (Bindings.yields_apply hsol.within hcallee).result.1
    obtain ⟨hgoes, htallies⟩ := settleSite_goes hcontext hcallee
    refine htallies.congr fun st hle => ?_
    have hle' := hgoes.trans hle
    have hagain : (context.bindings.apply site.callee).Repeats s.store :=
      Bindings.repeats_apply hsol.within hcallee
    rw [Option.toList_some, List.flatMap_singleton, asked, hagain st hle', givensOf_of_le hle' hty,
      List.map_eq_flatMap]
    refine List.flatMap_congr fun given hgiven => ?_
    rw [show context.bindings.apply given st = _ from apply_given hsol hcallee hgiven hle']

/-! ## Whole runs -/

/-- Putting a solved type on record settles nothing. -/
theorem tally_recordSolved (context : ApplyContext) (id : ExprId) (s : ApplyState) :
    s.store ≤ (recordSolved context id s).store ∧ tally (recordSolved context id s) = tally s := by
  unfold recordSolved
  cases context.recorded[id]? with
  | none => exact ⟨le_rfl, rfl⟩
  | some ty => exact ⟨(builds_apply context.bindings ty s.store).1, rfl⟩

theorem tallies_visit (hcontext : Draws context s.store) (id : ExprId) :
    Tallies context (visit id) s fun st =>
      context.callSites[id]?.toList.flatMap (asked context.bindings st) := by
  obtain ⟨hle, htally⟩ := tally_recordSolved context id s
  have hsettle := tallies_settleSite (hcontext.of_le hle) id
  refine ⟨?_, fun st hst => ?_⟩
  · rw [visit_apply]
    exact hle.trans hsettle.le
  · rw [visit_apply] at hst ⊢
    rw [hsettle.tally st hst, htally]

/-- What a run has to settle, read in a store: what the callees ask for, in the order in which the
calls are visited, then what the solver passes on. -/
def discharged (found : Finding) (sol : Solution) (exprs : List ExprId) (st : Store) :
    List (TypeId × Span) :=
  (exprs.flatMap fun id =>
    (found.callSites.toList.filter (·.expr = id)).flatMap (asked sol.bindings st)) ++
  sol.obligations.map fun o => ((sol.bindings.apply o.1 st).1, o.2)

/-- An application settles what callees ask for and what the solver passes on.  What it reads through
the solution is found again afterwards. -/
theorem tallies_applyTo (hcontext : Draws context s.store) (exprs : List ExprId)
    {obligations : List (TypeId × Span)} (hobligations : ∀ o ∈ obligations, o.1 < s.store.size) :
    let last := (applyTo exprs obligations context s).2.store
    (Tallies context (applyTo exprs obligations) s fun st =>
      (exprs.flatMap fun id => context.callSites[id]?.toList.flatMap (asked context.bindings st)) ++
      obligations.map fun o => ((context.bindings.apply o.1 st).1, o.2)) ∧
    (∀ id ∈ exprs, ∀ site, context.callSites[id]? = some site →
      (context.bindings.apply site.callee last).2 = last) ∧
    ∀ o ∈ obligations, (context.bindings.apply o.1 last).2 = last := by
  intro last
  have hsol := hcontext.solution
  have hvisit := fun id (_ : id ∈ exprs) s' hle => tallies_visit (s := s') (hcontext.of_le hle) id
  have hvisits := tallies_forM exprs hvisit
  have hdischarge := fun o ho s' hle => tallies_discharge (s := s')
    (hcontext.of_le (hvisits.le.trans hle))
    (lt_size_of_le (hvisits.le.trans hle) (hobligations o ho)) o.2
  have hloop := tallies_forM obligations hdischarge
  have hagain : ∀ ty < s.store.size, ∀ st, s.store ≤ st → (context.bindings.apply ty st).2 ≤ last →
      (context.bindings.apply ty last).2 = last := fun ty hty st hst hle =>
    congrArg Prod.snd
      (Bindings.repeats_apply (hsol.of_le hst).within (lt_size_of_le hst hty) last hle)
  refine ⟨(hvisits.seq hloop).congr fun st _ => ?_, fun id hid site hsite => ?_, fun o ho => ?_⟩
  · rw [List.map_eq_flatMap]
  · obtain ⟨s', hle, hturn⟩ := exists_turn hvisit hid
    have hle' := hle.trans (tally_recordSolved context id s').1
    have hcallee := hcontext.sites hsite
    refine hagain _ hcallee _ hle' (((settleSite_goes (hcontext.of_le hle')
      (lt_size_of_le hle' hcallee)).1.trans ?_).trans hloop.le)
    rw [visit_apply, hsite] at hturn
    exact hturn
  · obtain ⟨s', hle, hturn⟩ := exists_turn hdischarge ho
    exact hagain _ (hobligations o ho) _ (hvisits.le.trans hle)
      ((le_discharge context o.1 o.2 s').trans hturn)

theorem mem_asked {b : Bindings} {site : CallSite} {o : TypeId} {span : Span} :
    (o, span) ∈ asked b st site ↔ site.span = span ∧
      ∃ sig, st.signature? (b.apply site.callee st).1 = some sig ∧ o ∈ sig.givens := by
  unfold asked givensOf
  cases st.signature? (b.apply site.callee st).1 <;> simp [and_comm]

/-- Every obligation has one outcome.  The obligations of a run are those of the callees of its calls
and those of the solver, all read through the solution.  The ones that are about variables are
retained, each type once, in order of discovery; the ones that nothing provides are reported, once for
a type at a place; nothing comes of the others. -/
theorem runOn_outcomes {found : Finding} {limit : Nat} {cs : List Constraint} {st₀ store : Store}
    {exprs : List ExprId} {log : DiagnosticLog} (hcs : ∀ c ∈ cs, c.Within st₀)
    (hobligations : ∀ o span, .implemented o span ∈ cs → o < st₀.size)
    (hle : (solve limit cs st₀).2 ≤ store) (himpls : ∀ e ∈ traits.impls.toList, e.ty < store.size)
    (hcallees : ∀ site ∈ found.callSites.toList, site.callee < store.size)
    (hdistinct : (found.callSites.toList.map (·.expr)).Nodup)
    (hreachable : ∀ site ∈ found.callSites.toList, site.expr ∈ exprs) :
    let sol := (solve limit cs st₀).1
    let final := runOn traits found sol exprs store log
    let D := discharged found sol exprs final.store
    -- read in the last store, callees and obligations are what they were when their turns came
    (store ≤ final.store ∧
      (∀ site ∈ found.callSites.toList,
        (sol.bindings.apply site.callee final.store).2 = final.store) ∧
      ∀ p ∈ sol.obligations, (sol.bindings.apply p.1 final.store).2 = final.store) ∧
    (∀ o span, (o, span) ∈ D ↔
      (∃ site ∈ found.callSites.toList, site.span = span ∧
        ∃ sig, final.store.signature? (sol.bindings.apply site.callee final.store).1 = some sig ∧
          o ∈ sig.givens) ∨
      ∃ p ∈ sol.obligations, (sol.bindings.apply p.1 final.store).1 = o ∧ p.2 = span) ∧
    final.applied.retained =
      ((D.filter fun d => outcome traits final.store d.1 = .retained).map Prod.fst).eraseDups ∧
    final.log = (D.filter fun d => outcome traits final.store d.1 = .unmet).eraseDups.foldl
      (fun log d => log.report (unimplemented final.store d.1 d.2)) log := by
  intro sol final D
  have htakes := solve_takes limit hcs
  have hordered := htakes.ordered.of_le hle
  let context : ApplyContext :=
    { traits
      bindings := sol.bindings
      recorded := found.exprTypes
      callSites := Std.HashMap.ofList (found.callSites.toList.map fun site => (site.expr, site)) }
  -- the table of calls is read as the list that it was made from
  have hsites : ∀ id, context.callSites[id]?.toList = found.callSites.toList.filter (·.expr = id) :=
    toList_getElem?_ofList hdistinct
  have hsite : ∀ {id site}, context.callSites[id]? = some site ↔
      site ∈ found.callSites.toList ∧ site.expr = id := fun {id site} => by
    rw [← Option.mem_toList, hsites, List.mem_filter, decide_eq_true_iff]
  have hcontext : Draws context store :=
    ⟨⟨hordered.within, hordered.triangular⟩, himpls, fun h => hcallees _ (hsite.mp h).1⟩
  have hpassed : ∀ p ∈ sol.obligations, p.1 < store.size := fun p hp => by
    rw [show sol.obligations = _ from htakes.obligations, List.nil_append, List.mem_filterMap] at hp
    obtain ⟨c, hc, hp⟩ := hp
    cases c with
    | equal => cases hp
    | implemented o span =>
      obtain rfl := Option.some.inj hp
      exact lt_size_of_le (htakes.steps.le.trans hle) (hobligations o span hc)
  obtain ⟨htallies, hcallees', hpassed'⟩ := tallies_applyTo (s := { store, log }) hcontext exprs hpassed
  have hD : (exprs.flatMap fun id => context.callSites[id]?.toList.flatMap
      (asked context.bindings final.store)) ++
      sol.obligations.map (fun o => ((context.bindings.apply o.1 final.store).1, o.2)) = D := by
    simp only [hsites]
    rfl
  have htally : tally final = D.foldl (Tally.settle traits final.store) ⟨[], [], log⟩ :=
    hD ▸ htallies.tally final.store le_rfl
  obtain ⟨hretained, hlog⟩ := @Tally.foldl_settle traits final.store D ⟨[], [], log⟩
  rw [← htally, newTo_nil] at hretained hlog
  refine ⟨⟨htallies.le, fun site hmem => ?_, hpassed'⟩, fun o span => ?_, ?_, ?_⟩
  · exact hcallees' site.expr (hreachable site hmem) site (hsite.mpr ⟨hmem, rfl⟩)
  · simp only [D, discharged, List.mem_append, List.mem_flatMap, List.mem_filter, List.mem_map,
      mem_asked, decide_eq_true_iff, Prod.mk.injEq]
    refine or_congr_left ⟨fun ⟨id, _, site, ⟨hmem, _⟩, h⟩ => ⟨site, hmem, h⟩, fun ⟨site, hmem, h⟩ => ?_⟩
    exact ⟨site.expr, hreachable site hmem, site, ⟨hmem, rfl⟩, h⟩
  · exact hretained.trans (List.nil_append _)
  · exact hlog

open TraitTable (showOf generic_showOf not_generic_showOf exists_showStore)

/-- A store with the types `Show 'a` and `Show i32`, and with a function that asks for both. -/
theorem exists_showCall : ∃ (st : Store) (v c callee : TypeId), v < st.size ∧ c < st.size ∧
    callee < st.size ∧ (∃ subject, st.shape c = .trait "Show" subject []) ∧
    st.tree v = showOf (var (.named "a")) ∧ st.tree c = showOf (prim .i32) ∧
    givensOf st callee = [v, c] := by
  obtain ⟨st₀, v, c, hv, hc, ⟨_, hvshape⟩, ⟨_, hcshape⟩, hvtree, hctree⟩ := exists_showStore
  obtain ⟨st, callee, hle, hcallee, hshape, -⟩ := exists_build st₀
    (s := .function { ret := TypeId.unit, params := [], givens := [v, c] }) rfl
    (by simp [Shape.children, Signature.children, lt_size_of_prim, hv, hc])
  refine ⟨st, v, c, callee, lt_size_of_le hle hv, lt_size_of_le hle hc, hcallee,
    ⟨_, (shape_of_le hle hc).trans hcshape⟩, (tree_of_le hle hv).trans hvtree,
    (tree_of_le hle hc).trans hctree, ?_⟩
  rw [givensOf, Store.signature?, hshape]
  show [st₀.bare v, st₀.bare c] = _
  rw [bare_of_not_qualified (by rw [hvshape]; rfl), bare_of_not_qualified (by rw [hcshape]; rfl)]

/-- A call that asks for `Show 'a` and for `Show i32`, and an operator that asks for `Show i32` twice,
where nothing is implemented: the first obligation is retained, the other one is reported at both
places. -/
theorem runOn_outcomes_show :
    ∃ (st : Store) (v c callee : TypeId) (found : Finding) (cs : List Constraint),
      st.tree v = .mk (.trait "Show" (var (.named "a")) []) ∧
      st.tree c = .mk (.trait "Show" (.prim .i32) []) ∧
      found.callSites = #[⟨0, callee, ⟨0, 1⟩⟩] ∧
      cs = [.implemented c ⟨2, 3⟩, .implemented c ⟨2, 3⟩] ∧
      let final := runOn {} found (solve 4 cs st).1 [0] st {}
      final.applied.retained = [v] ∧
      final.log = ((DiagnosticLog.report {} (unimplemented final.store c ⟨0, 1⟩)).report
        (unimplemented final.store c ⟨2, 3⟩)) := by
  obtain ⟨st, v, c, callee, hv, hc, hcallee, ⟨_, hcshape⟩, hvtree, hctree, hgivens⟩ :=
    exists_showCall
  let found : Finding := { callSites := #[⟨0, callee, ⟨0, 1⟩⟩] }
  let cs : List Constraint := [.implemented c ⟨2, 3⟩, .implemented c ⟨2, 3⟩]
  have hsol : solve 4 cs st = ({ obligations := [(c, ⟨2, 3⟩), (c, ⟨2, 3⟩)] }, st) := rfl
  obtain ⟨⟨hle, -⟩, -, hretained, hlog⟩ := @runOn_outcomes {} found 4 cs st st [0] {}
    (by simp [cs, Constraint.Within]) (by simp [cs, hc]) (by rw [hsol]) (by simp)
    (by simpa [found] using hcallee) (by simp [found]) (by simp [found])
  refine ⟨st, v, c, callee, found, cs, hvtree, hctree, rfl, rfl, ?_⟩
  rw [hsol] at hle hretained hlog ⊢
  dsimp only at hle hretained hlog ⊢
  generalize runOn {} found _ [0] st {} = final at hle hretained hlog ⊢
  -- nothing is bound, so the last store has the obligations as they were asked for
  have hself : ∀ ty, Bindings.empty.apply ty final.store = (ty, final.store) := fun ty =>
    Bindings.apply_eq_self (by simp [Bindings.empty])
  have hD : discharged found { obligations := [(c, ⟨2, 3⟩), (c, ⟨2, 3⟩)] } [0] final.store =
      [(v, ⟨0, 1⟩), (c, ⟨0, 1⟩), (c, ⟨2, 3⟩), (c, ⟨2, 3⟩)] := by
    simp [discharged, found, asked, hself, givensOf_of_le hle hcallee, hgivens]
  have hvOutcome : outcome {} final.store v = .retained := by
    refine outcome_eq_retained (lt_size_of_le hle hv) ?_ ?_ <;> rw [tree_of_le hle hv, hvtree]
    · simp [showOf, faultless_mk, Shape.isError, Shape.children]
    · exact generic_showOf.mpr ⟨_, occurs_var.mpr rfl⟩
  have hcOutcome : outcome {} final.store c = .unmet := by
    have hnone : (TraitTable.isImplemented {} c final.store).1 = false := by
      unfold TraitTable.isImplemented
      rw [StateM.bind_apply, StateM.get_apply, shape_of_le hle hc, hcshape]
      rfl
    refine outcome_eq_unmet (lt_size_of_le hle hc) ?_ ?_ hnone <;> rw [tree_of_le hle hc, hctree]
    · simp [showOf, faultless_mk, Shape.isError, Shape.children]
    · exact not_generic_showOf _
  rw [hD] at hretained hlog
  refine ⟨hretained.trans ?_, hlog.trans ?_⟩
  · simp [hvOutcome, hcOutcome, List.eraseDups_cons]
  · simp [hvOutcome, hcOutcome, List.eraseDups_cons]

end ApplyM

end ConstraintTyping
