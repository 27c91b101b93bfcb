import ConstraintTyping.Infer.Find
import ConstraintTyping.Proofs.Renaming.Printing
import ConstraintTyping.Proofs.Renaming.Products

/-!
# Walks side by side

Two walks over the same body, one of them with other names for the type variables in it, start from
stores in lockstep.  They see the same traits, and functions whose types are alike.  Then they go in
step: the types of expressions are alike, the constraints that are asked for are alike, and the same
faults are reported.

The rules below are the rules of each construct for two walks; they are put together over the tree
in the module on bodies.
-/

namespace ConstraintTyping

open Store StoreM

namespace Renaming

variable {R : Renaming} {w w' : Stores}

/-! ## What is reported -/

/-- Faults of the same kind at the same place; their words are the same where the renaming keeps the
names of variables. -/
structure AlikeFault (R : Renaming) (f f' : TypeFault) : Prop where
  kind : f'.kind = f.kind
  span : f'.span = f.span
  eq : R.Plain → f' = f

theorem alikeFault_refl (R : Renaming) (f : TypeFault) : R.AlikeFault f f := ⟨rfl, rfl, fun _ => rfl⟩

/-- Two logs that go on from earlier ones by faults that are alike. -/
def AlikeLogs (R : Renaming) (logs : DiagnosticLog × DiagnosticLog) (log log' : DiagnosticLog) : Prop :=
  ∃ fs fs', log = fs.foldl DiagnosticLog.report logs.1 ∧
    log' = fs'.foldl DiagnosticLog.report logs.2 ∧ List.Forall₂ R.AlikeFault fs fs'

namespace AlikeLogs

variable {logs : DiagnosticLog × DiagnosticLog} {log log' : DiagnosticLog}

theorem start (R : Renaming) (logs : DiagnosticLog × DiagnosticLog) : R.AlikeLogs logs logs.1 logs.2 :=
  ⟨[], [], rfl, rfl, .nil⟩

theorem report (h : R.AlikeLogs logs log log') {f f' : TypeFault} (hf : R.AlikeFault f f') :
    R.AlikeLogs logs (log.report f) (log'.report f') := by
  obtain ⟨fs, fs', rfl, rfl, hfs⟩ := h
  refine ⟨fs ++ [f], fs' ++ [f'], ?_, ?_, List.rel_append hfs (.cons hf .nil)⟩ <;>
    rw [List.foldl_append, List.foldl_cons, List.foldl_nil]

end AlikeLogs

/-! ## What is seen -/

/-- Functions that are alike for those who refer to them.  A finished one is used at fresh variables,
so that the names of its own variables do not matter. -/
structure AlikeGlobal (R : Renaming) (w : Stores) (g g' : GlobalFn) : Prop where
  finished : g'.finished = g.finished
  general : g.finished = true → w.1.isVar g.ty = false ∧ (w.1.shape g.ty).isQualified = false ∧
    ∃ R₀ : Renaming, R₀.Alike w g.ty g'.ty
  provisional : g.finished = false → R.Alike w g.ty g'.ty

theorem AlikeGlobal.of_le {g g' : GlobalFn} (h : R.AlikeGlobal w g g') (hle : w ≤ w') :
    R.AlikeGlobal w' g g' where
  finished := h.finished
  general hfin := by
    obtain ⟨hv, hq, R₀, hty⟩ := h.general hfin
    exact ⟨by rw [isVar_of_le hle.1 hty.left_lt, hv], by rw [shape_of_le hle.1 hty.left_lt, hq],
      R₀, hty.of_le hle⟩
  provisional hfin := (h.provisional hfin).of_le hle

end Renaming

/-- Two walks side by side: what they start from, and the names that they may refer to. -/
structure SideBySide where
  R : Renaming
  base : Store
  context : FindContext
  context' : FindContext
  names : Set Name
  logs : DiagnosticLog × DiagnosticLog
  suits : R.Suits base

namespace SideBySide

open Renaming

variable (J : SideBySide) {w w' : Stores} {α β γ δ : Type}

/-- The names that the walks may refer to are alike on both sides. -/
structure Sees (w : Stores) : Prop where
  traits : J.context'.traits = J.context.traits
  methods : ∀ {name : Name} {ty : TypeId}, J.context.traits.method? name = some ty → Same w ty ty
  globals : ∀ name ∈ J.names,
    Option.Rel (J.R.AlikeGlobal w) J.context.globals[name]? J.context'.globals[name]?

variable {J} in
theorem Sees.of_le (h : J.Sees w) (hle : w ≤ w') : J.Sees w' where
  traits := h.traits
  methods hty := (h.methods hty).of_le hle
  globals name hname := rel_option_mono (h.globals name hname) fun _ _ hg => hg.of_le hle

/-- Scopes that bind the same names to types that are alike. -/
abbrev AlikeScopes (R : Renaming) (w : Stores) (scopes scopes' : Scopes) : Prop :=
  List.Forall₂ (List.Forall₂ fun p q => q.1 = p.1 ∧ R.Alike w p.2 q.2) scopes.frames scopes'.frames

/-- Call sites of one expression with callees that are alike. -/
structure AlikeSite (R : Renaming) (w : Stores) (site site' : CallSite) : Prop where
  expr : site'.expr = site.expr
  callee : R.Alike w site.callee site'.callee
  span : site'.span = site.span

/-- Findings that are alike. -/
structure AlikeFinding (R : Renaming) (w : Stores) (found found' : Finding) : Prop where
  constraints : List.Forall₂ (R.AlikeConstraint w) found.constraints.toList found'.constraints.toList
  exprTypes : ∀ id : ExprId, Option.Rel (R.Alike w) found.exprTypes[id]? found'.exprTypes[id]?
  callSites : List.Forall₂ (AlikeSite R w) found.callSites.toList found'.callSites.toList
  incomplete : found'.incomplete = found.incomplete

/-- The states of two walks in step. -/
structure InWalk (w : Stores) (s s' : FindState) : Prop where
  stores : J.R.InStepFrom J.base w s.store s'.store
  sees : J.Sees w
  scopes : AlikeScopes J.R w s.scopes s'.scopes
  finding : AlikeFinding J.R w s.finding s'.finding
  log : J.R.AlikeLogs J.logs s.log s'.log

/-- Two walks go in step, and their results are related. -/
def Walks (x : FindM α) (y : FindM β) (w : Stores) (Q : Stores → α → β → Prop) : Prop :=
  Coupled J.InWalk (x J.context) (y J.context') w Q

variable {J} {R : Renaming}

theorem AlikeScopes.of_le {scopes scopes' : Scopes} (h : AlikeScopes R w scopes scopes')
    (hle : w ≤ w') : AlikeScopes R w' scopes scopes' :=
  h.imp fun _ _ h => h.imp fun _ _ h => ⟨h.1, h.2.of_le hle⟩

theorem AlikeFinding.of_le {found found' : Finding} (h : AlikeFinding R w found found')
    (hle : w ≤ w') : AlikeFinding R w' found found' where
  constraints := R.stable_alikeConstraint.forall₂ hle h.constraints
  exprTypes id := rel_option_mono (h.exprTypes id) fun _ _ h => h.of_le hle
  callSites := h.callSites.imp fun _ _ h => ⟨h.expr, h.callee.of_le hle, h.span⟩
  incomplete := h.incomplete

theorem InWalk.withStore {s s' : FindState} {st st' : Store} (h : J.InWalk w s s') (hle : w ≤ w')
    (hst : J.R.InStepFrom J.base w' st st') :
    J.InWalk w' { s with store := st } { s' with store := st' } where
  stores := hst
  sees := h.sees.of_le hle
  scopes := h.scopes.of_le hle
  finding := h.finding.of_le hle
  log := h.log

/-! ## Steps of a walk -/

section Steps

variable {x : FindM α} {y : FindM β} {Q : Stores → α → β → Prop} {P : Stores → γ → δ → Prop}

theorem walks_pure {a : α} {b : β} (h : Q w a b) : J.Walks (pure a) (pure b) w Q := coupled_pure h

theorem Walks.bind {f : α → FindM γ} {g : β → FindM δ} (h : J.Walks x y w Q)
    (hf : ∀ w' a b, w ≤ w' → Q w' a b → J.Walks (f a) (g b) w' P) :
    J.Walks (x >>= f) (y >>= g) w P :=
  Coupled.bind h hf

/-- What is known of the states in which the walks go on. -/
theorem walks_of_state (h : J.Sees w → Branches J.base w → J.Walks x y w Q) : J.Walks x y w Q :=
  fun s s' hs => h hs.sees hs.stores.branches s s' hs

theorem walks_get_bind {f : FindState → FindM γ} {g : FindState → FindM δ}
    (h : ∀ s s', J.InWalk w s s' → J.Walks (f s) (g s') w P) :
    J.Walks (get >>= f) (get >>= g) w P :=
  fun s s' hs => h s s' hs s s' hs

theorem walks_read_bind {f : FindContext → FindM γ} {g : FindContext → FindM δ}
    (h : J.Walks (f J.context) (g J.context') w P) : J.Walks (read >>= f) (read >>= g) w P := h

theorem walks_query_bind {p : Store → α} {q : Store → β} {f : α → FindM γ} {g : β → FindM δ}
    (h : Branches J.base w → J.Walks (f (p w.1)) (g (q w.2)) w P) :
    J.Walks (FindM.query p >>= f) (FindM.query q >>= g) w P := by
  intro s s' hs
  have := h hs.stores.branches s s' hs
  rwa [hs.stores.left, hs.stores.right] at this

theorem walks_build {x : StoreM α} {y : StoreM β} (h : J.R.CouplesFrom J.base x y w Q) :
    J.Walks (FindM.build x) (FindM.build y) w Q := by
  intro s s' hs
  obtain ⟨w', hle, hst, hQ⟩ := h _ _ hs.stores
  exact ⟨w', hle, hs.withStore hle hst, hQ⟩

theorem walks_builds {x : StoreM α} {y : StoreM β} (h : J.R.Couples x y w Q) (hx : x.Builds)
    (hy : y.Builds) : J.Walks (FindM.build x) (FindM.build y) w Q :=
  walks_build (h.from hx hy)

theorem walks_freshVar (w : Stores) : J.Walks FindM.freshVar FindM.freshVar w J.R.Alike :=
  walks_builds (J.R.couples_freshVar w) builds_freshVar builds_freshVar

/-- A step that changes only what was found. -/
theorem walks_find {f g : Finding → Finding}
    (h : ∀ found found', AlikeFinding J.R w found found' → AlikeFinding J.R w (f found) (g found')) :
    J.Walks (modify fun s => { s with finding := f s.finding })
      (modify fun s => { s with finding := g s.finding }) w fun _ _ _ => True :=
  coupled_modify fun _ _ hs => ⟨hs.stores, hs.sees, hs.scopes, h _ _ hs.finding, hs.log⟩

theorem alikeFinding_push {found found' : Finding} {c c' : Constraint}
    (h : AlikeFinding R w found found') (hc : R.AlikeConstraint w c c') :
    AlikeFinding R w { found with constraints := found.constraints.push c }
      { found' with constraints := found'.constraints.push c' } where
  constraints := by
    rw [Array.toList_push, Array.toList_push]
    exact List.rel_append h.constraints (.cons hc .nil)
  exprTypes := h.exprTypes
  callSites := h.callSites
  incomplete := h.incomplete

theorem walks_equal {a a' b b' : TypeId} (span : Span) (reason : Reason) (ha : J.R.Alike w a a')
    (hb : J.R.Alike w b b') :
    J.Walks (FindM.equal a b span reason) (FindM.equal a' b' span reason) w fun _ _ _ => True :=
  walks_find fun _ _ h => alikeFinding_push h (.equal ha hb span reason)

theorem walks_oblige {a a' : TypeId} (span : Span) (ha : J.R.Alike w a a') :
    J.Walks (FindM.oblige a span) (FindM.oblige a' span) w fun _ _ _ => True :=
  walks_find fun _ _ h => alikeFinding_push h (.implemented ha span)

theorem walks_site {id : ExprId} {callee callee' : TypeId} {span : Span}
    (h : J.R.Alike w callee callee') :
    J.Walks
      (modify fun s => { s with finding.callSites := s.finding.callSites.push ⟨id, callee, span⟩ })
      (modify fun s => { s with finding.callSites := s.finding.callSites.push ⟨id, callee', span⟩ }) w
      fun _ _ _ => True :=
  walks_find
    (f := fun found => { found with callSites := found.callSites.push ⟨id, callee, span⟩ })
    (g := fun found => { found with callSites := found.callSites.push ⟨id, callee', span⟩ })
    fun _ _ hf => ⟨hf.constraints, hf.exprTypes, by
      rw [Array.toList_push, Array.toList_push]
      exact List.rel_append hf.callSites (.cons ⟨rfl, h, rfl⟩ .nil), hf.incomplete⟩

theorem walks_record (id : ExprId) {ty ty' : TypeId} (h : J.R.Alike w ty ty') :
    J.Walks (FindM.record id ty) (FindM.record id ty') w J.R.Alike := by
  refine (walks_find
    (f := fun found => { found with exprTypes := found.exprTypes.insert id ty })
    (g := fun found => { found with exprTypes := found.exprTypes.insert id ty' })
    fun _ _ hf => ⟨hf.constraints, fun id' => ?_, hf.callSites, hf.incomplete⟩).bind
      fun w' _ _ hle _ => walks_pure (h.of_le hle)
  dsimp only
  rw [Std.HashMap.getElem?_insert, Std.HashMap.getElem?_insert]
  split
  · exact .some h
  · exact hf.exprTypes id'

theorem walks_fault (f : TypeFault) : J.Walks (FindM.fault f) (FindM.fault f) w J.R.Alike :=
  fun _ _ hs => ⟨w, le_rfl, ⟨hs.stores, hs.sees, hs.scopes, hs.finding,
    hs.log.report (alikeFault_refl _ f)⟩, J.R.alike_prim w .error⟩

theorem walks_incomplete (f : TypeFault) :
    J.Walks (FindM.incomplete f) (FindM.incomplete f) w fun _ _ _ => True :=
  coupled_modify fun _ _ hs => ⟨hs.stores, hs.sees, hs.scopes,
    ⟨hs.finding.constraints, hs.finding.exprTypes, hs.finding.callSites, rfl⟩,
    hs.log.report (alikeFault_refl _ f)⟩

/-- A count is checked on both sides, and the walks go on. -/
theorem walks_check_bind {p : Prop} [Decidable p] (f : TypeFault) {k : PUnit → FindM γ}
    {l : PUnit → FindM δ} (h : ∀ w', w ≤ w' → J.Walks (k ⟨⟩) (l ⟨⟩) w' P) :
    J.Walks (if p then FindM.incomplete f >>= k else k ⟨⟩)
      (if p then FindM.incomplete f >>= l else l ⟨⟩) w P := by
  split
  · exact (walks_incomplete f).bind fun w' _ _ hle _ => h w' hle
  · exact h w le_rfl

theorem walks_forM {r : Stores → α → β → Prop} {f : α → FindM PUnit} {g : β → FindM PUnit}
    (hr : Stable r)
    (hf : ∀ w' a b, w ≤ w' → r w' a b → J.Walks (f a) (g b) w' fun _ _ _ => True) {xs : List α}
    {ys : List β} (h : List.Forall₂ (r w) xs ys) :
    J.Walks (xs.forM f) (ys.forM g) w fun _ _ _ => True :=
  coupled_forM_read hr hf h

/-- A step that changes only the scopes. -/
theorem walks_rescope {f g : Scopes → Scopes}
    (h : ∀ scopes scopes', AlikeScopes J.R w scopes scopes' →
      AlikeScopes J.R w (f scopes) (g scopes')) :
    J.Walks (modify fun s => { s with scopes := f s.scopes })
      (modify fun s => { s with scopes := g s.scopes }) w fun _ _ _ => True :=
  coupled_modify fun _ _ hs => ⟨hs.stores, hs.sees, h _ _ hs.scopes, hs.finding, hs.log⟩

theorem walks_enterScope (w : Stores) :
    J.Walks FindM.enterScope FindM.enterScope w fun _ _ _ => True :=
  walks_rescope fun _ _ h => .cons .nil h

theorem walks_exitScope (w : Stores) :
    J.Walks FindM.exitScope FindM.exitScope w fun _ _ _ => True :=
  walks_rescope fun scopes scopes' h => by
    obtain ⟨frames⟩ := scopes
    obtain ⟨frames'⟩ := scopes'
    cases h with
    | nil => exact .nil
    | cons _ h => exact h

theorem walks_bindName (name : Name) {ty ty' : TypeId} (hty : J.R.Alike w ty ty') :
    J.Walks (FindM.bind name ty) (FindM.bind name ty') w fun _ _ _ => True :=
  walks_rescope (f := (·.bind name ty)) (g := (·.bind name ty')) fun scopes scopes' h => by
    obtain ⟨frames⟩ := scopes
    obtain ⟨frames'⟩ := scopes'
    cases h with
    | nil => exact .nil
    | cons hframe h => exact .cons (.cons ⟨rfl, hty⟩ hframe) h

theorem AlikeScopes.lookup? {scopes scopes' : Scopes} (h : AlikeScopes R w scopes scopes')
    (name : Name) : Option.Rel (R.Alike w) (scopes.lookup? name) (scopes'.lookup? name) := by
  have hframe : ∀ {frame frame' : List (Name × TypeId)},
      List.Forall₂ (fun p q => q.1 = p.1 ∧ R.Alike w p.2 q.2) frame frame' →
      Option.Rel (R.Alike w) (frame.lookup name) (frame'.lookup name) := by
    intro frame frame' hframe
    induction hframe with
    | nil => exact .none
    | @cons p q _ _ hpq _ ih =>
      obtain ⟨x, ty⟩ := p
      obtain ⟨y, ty'⟩ := q
      obtain ⟨rfl, hty⟩ := hpq
      dsimp only at hty
      rw [List.lookup_cons, List.lookup_cons]
      dsimp only
      split
      · exact .some hty
      · exact ih
  obtain ⟨frames⟩ := scopes
  obtain ⟨frames'⟩ := scopes'
  unfold Scopes.lookup?
  change List.Forall₂ _ frames frames' at h
  induction h with
  | nil => exact .none
  | @cons frame frame' _ _ hff _ ih =>
    have hhead := hframe hff
    rw [List.findSome?_cons, List.findSome?_cons]
    generalize frame.lookup name = o at hhead
    generalize frame'.lookup name = o' at hhead
    cases hhead with
    | none => exact ih
    | some hty => exact .some hty

end Steps

end SideBySide

end ConstraintTyping
