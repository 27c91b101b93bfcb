import ConstraintTyping.Infer.Find
import ConstraintTyping.Proofs.Infer.Constraints
import ConstraintTyping.Proofs.Infer.Written
import ConstraintTyping.Proofs.Solve.InOrder

/-!
# What a walk leaves behind

A walk over a body goes from state to state.  Types, constraints and call sites are added and never
taken back, errors are only counted up, and the types of expressions are recorded one after the
other.  Read as trees, a state is what was found up to it.

`FindM.Does` says what a step of a walk does: what holds where it ends, and, unless it reports an
error, how what is found then goes on from what was found before.  All types are read in one later
store, in which every type of the walk has its final tree.
-/

namespace ConstraintTyping

open Store StoreM TypeTree

/-! ## Names that are not local -/

namespace FindContext

/-- The type of a function or method, read as a tree. -/
def scheme? (context : FindContext) (st : Store) (name : Name) : Option Scheme :=
  match context.globals[name]? with
  | some g => some ⟨st.tree g.ty, g.finished⟩
  | none => (context.traits.method? name).map fun ty => ⟨st.tree ty, true⟩

/-- Functions and methods have types of a store. -/
structure Within (context : FindContext) (st : Store) : Prop where
  globals : ∀ {name : Name} {g : GlobalFn}, context.globals[name]? = some g → g.ty < st.size
  methods : ∀ {name : Name} {ty : TypeId}, context.traits.method? name = some ty → ty < st.size

variable {context : FindContext} {st st' : Store}

theorem Within.of_le (h : context.Within st) (hle : st ≤ st') : context.Within st' where
  globals hg := lt_size_of_le hle (h.globals hg)
  methods hm := lt_size_of_le hle (h.methods hm)

theorem scheme?_of_le (h : context.Within st) (hle : st ≤ st') :
    context.scheme? st' = context.scheme? st := by
  funext name
  unfold scheme?
  split
  · next g hg => rw [tree_of_le hle (h.globals hg)]
  · cases hm : context.traits.method? name with
    | none => rfl
    | some ty => rw [Option.map_some, Option.map_some, tree_of_le hle (h.methods hm)]

/-- What a walk from a store refers to. -/
def surroundings (context : FindContext) (st : Store) : Surroundings where
  declarations := st.declarations
  names := context.scheme? st

end FindContext

/-! ## Scopes -/

/-- The local names with their types, read as trees. -/
def Scopes.env (scopes : Scopes) (T : Store) : Env :=
  scopes.frames.flatten.map fun b => (b.1, T.tree b.2)

namespace Scopes

variable {scopes : Scopes} {T : Store}

@[simp] theorem env_enter (scopes : Scopes) (T : Store) : scopes.enter.env T = scopes.env T := rfl

/-- A local name has the type that it is bound to. -/
theorem lookup_env (scopes : Scopes) (T : Store) (name : Name) :
    (scopes.env T).lookup name = (scopes.lookup? name).map T.tree := by
  obtain ⟨frames⟩ := scopes
  have hframe : ∀ frame : List (Name × TypeId),
      (frame.map fun b => (b.1, T.tree b.2)).lookup name = (frame.lookup name).map T.tree := by
    intro frame
    induction frame with
    | nil => rfl
    | cons b frame ih =>
      rw [List.map_cons, List.lookup_cons, List.lookup_cons, ih]
      split <;> rfl
  show ((frames.flatten).map _).lookup name =
    (frames.findSome? fun frame => frame.lookup name).map T.tree
  induction frames with
  | nil => rfl
  | cons frame frames ih =>
    rw [List.flatten_cons, List.map_append, List.lookup_append, hframe, ih, List.findSome?_cons]
    cases frame.lookup name <;> rfl

/-- A binding of the innermost scope comes first and ends with the scope. -/
theorem bind_spec (h : scopes.frames ≠ []) (name : Name) (ty : TypeId) :
    (scopes.bind name ty).frames.flatten = (name, ty) :: scopes.frames.flatten ∧
      (scopes.bind name ty).frames ≠ [] ∧ (scopes.bind name ty).exit = scopes.exit := by
  obtain ⟨frames⟩ := scopes
  cases frames with
  | nil => exact absurd rfl h
  | cons frame outer => exact ⟨rfl, List.cons_ne_nil _ _, rfl⟩

theorem env_bind (T : Store) (h : scopes.frames ≠ []) (name : Name) (ty : TypeId) :
    (scopes.bind name ty).env T = (name, T.tree ty) :: scopes.env T := by
  rw [env, (bind_spec h name ty).1]
  rfl

end Scopes

/-! ## States of a walk -/

namespace FindState

/-- What was found up to a state, given the records that were made. -/
def found (s : FindState) (T : Store) (records : List (ExprId × TypeId)) : Found where
  vars := s.store.vars
  equations := s.finding.constraints.toList.filterMap (Constraint.equation? T)
  records := records.map fun r => (r.1, T.tree r.2)
  sites := s.finding.callSites.toList.map fun c => (c.expr, T.tree c.callee)

variable (W : Surroundings) (context : FindContext)

/-- Everything in a state is about types of its store, which holds the declarations and names that a
walk refers to. -/
structure Ready (s : FindState) : Prop where
  implements : s.store.Implements W.declarations
  names : W.names = context.scheme? s.store
  context : context.Within s.store
  constraints : ∀ c ∈ s.finding.constraints.toList, c.Within s.store
  obligations : ∀ c ∈ s.finding.constraints.toList, ∀ o, c.obligation? = some o →
    o.1 < s.store.size
  sites : ∀ c ∈ s.finding.callSites.toList, c.callee < s.store.size ∧
    ∃ sig, s.store.shape c.callee = .function sig
  frames : s.scopes.frames ≠ []
  locals : ∀ b ∈ s.scopes.frames.flatten, b.2 < s.store.size

/-- A walk goes from one state to another, recording the types of expressions. -/
structure Goes (s s' : FindState) (records : List (ExprId × TypeId)) : Prop where
  ready : s'.Ready W context
  store : s.store.Advances s'.store
  constraints : s.finding.constraints.toList <+: s'.finding.constraints.toList
  sites : s.finding.callSites.toList <+: s'.finding.callSites.toList
  exprTypes : s'.finding.exprTypes =
    records.foldl (fun types r => types.insert r.1 r.2) s.finding.exprTypes
  records : ∀ r ∈ records, r.2 < s'.store.size
  errors : s.log.errorCount ≤ s'.log.errorCount
  incomplete : s'.finding.incomplete = true →
    s.finding.incomplete = true ∨ s.log.errorCount < s'.log.errorCount

variable {W context} {s s' s'' : FindState} {records records' : List (ExprId × TypeId)}

theorem Goes.refl (h : s.Ready W context) : s.Goes W context s [] where
  ready := h
  store := .refl s.store
  constraints := List.prefix_rfl
  sites := List.prefix_rfl
  exprTypes := rfl
  records := by simp
  errors := le_rfl
  incomplete := Or.inl

theorem Goes.trans (h : s.Goes W context s' records) (h' : s'.Goes W context s'' records') :
    s.Goes W context s'' (records ++ records') where
  ready := h'.ready
  store := h.store.trans h'.store
  constraints := h.constraints.trans h'.constraints
  sites := h.sites.trans h'.sites
  exprTypes := by rw [List.foldl_append, ← h.exprTypes, h'.exprTypes]
  records r hr := by
    rcases List.mem_append.mp hr with hr | hr
    · exact lt_size_of_le h'.store.le (h.records r hr)
    · exact h'.records r hr
  errors := h.errors.trans h'.errors
  incomplete hinc := by
    rcases h'.incomplete hinc with hinc | hlt
    · exact (h.incomplete hinc).imp_right fun hlt => hlt.trans_le h'.errors
    · exact .inr (h.errors.trans_lt hlt)

/-- A state of a store that goes on from the one of a ready state, all else being equal. -/
theorem Ready.withStore {st : Store} (h : s.Ready W context)
    (hends : DeclM.EndsWell s.store st) : { s with store := st }.Ready W context where
  implements := h.implements.of_endsWell hends
  names := h.names.trans (FindContext.scheme?_of_le h.context hends.1.le).symm
  context := h.context.of_le hends.1.le
  constraints c hc := (h.constraints c hc).of_le hends.1.le
  obligations c hc o ho := lt_size_of_le hends.1.le (h.obligations c hc o ho)
  sites c hc := by
    obtain ⟨hlt, sig, hsig⟩ := h.sites c hc
    exact ⟨lt_size_of_le hends.1.le hlt, sig, (shape_of_le hends.1.le hlt).trans hsig⟩
  frames := h.frames
  locals b hb := lt_size_of_le hends.1.le (h.locals b hb)

/-- What is found grows along a walk. -/
theorem Goes.grows (h : s.Goes W context s' records') (T : Store)
    (records : List (ExprId × TypeId)) :
    (s.found T records).Grows (s'.found T (records ++ records')) where
  vars := vars_subset_of_le h.store.le
  equations := h.constraints.filterMap _
  records := by
    show records.map _ <+: (records ++ records').map _
    rw [List.map_append]
    exact List.prefix_append _ _
  sites := h.sites.map _

/-- A type of the state is over the variables that are in use. -/
theorem over_tree {T : Store} {ty : TypeId} (hle : s.store ≤ T) (hty : ty < s.store.size) :
    (T.tree ty).Over s.store.vars := by
  rw [tree_of_le hle hty]
  exact fun _ hx => mem_vars_of_occurs hx

/-- What was found up to a ready state is over the variables that are in use. -/
theorem Ready.closed {T : Store} (h : s.Ready W context) (hle : s.store ≤ T)
    (hrecords : ∀ r ∈ records, r.2 < s.store.size) : (s.found T records).Closed where
  equations p hp := by
    obtain ⟨c, hc, heq⟩ := List.mem_filterMap.mp hp
    cases c with
    | implemented _ _ => cases heq
    | equal l r span reason =>
      obtain rfl := Option.some.inj heq
      obtain ⟨hl, hr⟩ := h.constraints _ hc l r span reason rfl
      exact ⟨over_tree hle hl, over_tree hle hr⟩
  records r hr := by
    obtain ⟨q, hq, rfl⟩ := List.mem_map.mp hr
    exact over_tree hle (hrecords q hq)

theorem Ready.env_over {T : Store} (h : s.Ready W context) (hle : s.store ≤ T) :
    (s.scopes.env T).Over s.store.vars := by
  intro b hb
  obtain ⟨q, hq, rfl⟩ := List.mem_map.mp hb
  exact over_tree hle (h.locals q hq)

end FindState

/-! ## What a step does -/

namespace FindM

variable {α β : Type} {W : Surroundings} {context : FindContext} {s : FindState} {act : FindM α}
  {Q Q' : α → FindState → Prop} {P P' : Store → α → FindState → Found → Found → Prop}

theorem bind_apply (act : FindM α) (f : α → FindM β) (context : FindContext) (s : FindState) :
    (act >>= f) context s = f (act context s).1 context (act context s).2 :=
  rfl

theorem query_bind (f : Store → α) (act : α → FindM β) (context : FindContext) (s : FindState) :
    (query f >>= act) context s = act (f s.store) context s :=
  rfl

theorem identRule_apply (name : Name) (span : Span) (context : FindContext) (s : FindState) :
    identRule name span context s =
      (match s.scopes.lookup? name with
        | some ty => return ty
        | none =>
          match context.globals[name]? with
          | some g => if g.finished then build (instantiateFresh g.ty) else return g.ty
          | none =>
            match context.traits.method? name with
            | some method => build (instantiateFresh method)
            | none => fault (.undeclared "value" name span) : FindM TypeId) context s :=
  rfl

theorem identRule_local {name : Name} {ty : TypeId} (h : s.scopes.lookup? name = some ty)
    (span : Span) : identRule name span context s = (ty, s) := by
  rw [identRule_apply, h]
  rfl

/-- A walk begins with nothing found and no name in scope. -/
theorem ready_start {st : Store} (log : DiagnosticLog) (hco : st.Coherent) (hcomp : st.Complete)
    (hcontext : context.Within st) :
    FindState.Ready (context.surroundings st) context { store := st, log } where
  implements := ⟨hco, hcomp, rfl⟩
  names := rfl
  context := hcontext
  constraints := by simp
  obligations := by simp
  sites := by simp
  frames := List.cons_ne_nil _ _
  locals := by simp

/-- A step of a walk goes on from a state, and `Q` holds where it ends.  Unless it reports an error,
`P` relates what was found before to what is found then, all types being read in a later store. -/
def Does (W : Surroundings) (context : FindContext) (act : FindM α) (s : FindState)
    (Q : α → FindState → Prop) (P : Store → α → FindState → Found → Found → Prop) : Prop :=
  ∃ new, s.Goes W context (act context s).2 new ∧ Q (act context s).1 (act context s).2 ∧
    ((act context s).2.log.errorCount = s.log.errorCount → ∀ T, (act context s).2.store ≤ T →
      ∀ records, (∀ r ∈ records, r.2 < s.store.size) →
        P T (act context s).1 (act context s).2 (s.found T records)
          ((act context s).2.found T (records ++ new)))

theorem Does.mono (h : Does W context act s Q P)
    (hQ : ∀ a s', s'.Ready W context → s.store.Advances s'.store → Q a s' → Q' a s')
    (hP : ∀ T a s' S S', s'.Ready W context → s.store.Advances s'.store → s'.store ≤ T → Q a s' →
      P T a s' S S' → P' T a s' S S') : Does W context act s Q' P' := by
  obtain ⟨new, hgoes, hq, hp⟩ := h
  refine ⟨new, hgoes, hQ _ _ hgoes.ready hgoes.store hq, fun herr T hT records hrecords => ?_⟩
  exact hP T _ _ _ _ hgoes.ready hgoes.store hT hq (hp herr T hT records hrecords)

theorem Does.imp (h : Does W context act s Q P)
    (hP : ∀ T a s' S S', s'.Ready W context → s.store.Advances s'.store → s'.store ≤ T → Q a s' →
      P T a s' S S' → P' T a s' S S') : Does W context act s Q P' :=
  h.mono (fun _ _ _ _ hq => hq) hP

/-- What is found at the end of a step is over the variables in use then. -/
theorem Does.reaches {act : FindM TypeId} {Q : TypeId → FindState → Prop}
    {P : Store → TypeId → FindState → Found → Found → Prop} (h : Does W context act s Q P)
    (hty : ∀ ty s', Q ty s' → ty < s'.store.size) :
    Does W context act s Q fun T ty s' S S' =>
      P T ty s' S S' ∧ S.Reaches S' (T.tree ty) (s'.scopes.env T) := by
  obtain ⟨new, hgoes, hq, hp⟩ := h
  refine ⟨new, hgoes, hq, fun herr T hT records hrecords =>
    ⟨hp herr T hT records hrecords, ?_⟩⟩
  refine ⟨hgoes.grows T records, hgoes.ready.closed hT fun r hr => ?_,
    FindState.over_tree hT (hty _ _ hq), hgoes.ready.env_over hT⟩
  rcases List.mem_append.mp hr with hr | hr
  · exact lt_size_of_le hgoes.store.le (hrecords r hr)
  · exact hgoes.records r hr

theorem does_pure {a : α} (hs : s.Ready W context) (hQ : Q a s)
    (hP : ∀ T S, s.store ≤ T → P T a s S S) : Does W context (pure a) s Q P := by
  refine ⟨[], .refl hs, hQ, fun _ T hT records _ => ?_⟩
  rw [List.append_nil]
  exact hP T _ hT

/-- One step after the other. -/
theorem Does.bind {f : α → FindM β} {R : β → FindState → Prop}
    {P' : Store → β → FindState → Found → Found → Prop} (h : Does W context act s Q P)
    (hf : ∀ a s₁, s₁.Ready W context → s.store.Advances s₁.store → Q a s₁ →
      Does W context (f a) s₁ R fun T b s' S₁ S' =>
        s₁.store ≤ T → ∀ S, P T a s₁ S S₁ → P' T b s' S S') :
    Does W context (act >>= f) s R P' := by
  obtain ⟨new, hgoes, hq, hp⟩ := h
  obtain ⟨new', hgoes', hr, hp'⟩ := hf _ _ hgoes.ready hgoes.store hq
  refine ⟨new ++ new', hgoes.trans hgoes', hr, fun herr T hT records hrecords => ?_⟩
  have hle := hgoes.errors
  have hle' := hgoes'.errors
  change (f (act context s).1 context (act context s).2).2.log.errorCount = _ at herr
  have hT₁ := hgoes'.store.le.trans hT
  rw [← List.append_assoc]
  refine hp' (by omega) T hT (records ++ new) ?_ hT₁ _ (hp (by omega) T hT₁ records hrecords)
  intro r hr
  rcases List.mem_append.mp hr with hr | hr
  · exact lt_size_of_le hgoes.store.le (hrecords r hr)
  · exact hgoes.records r hr

section Bind

variable {R : β → FindState → Prop} {P' : Store → β → FindState → Found → Found → Prop}

theorem does_get_bind {f : FindState → FindM β} (h : Does W context (f s) s R P') :
    Does W context (get >>= f) s R P' := h

theorem does_read_bind {f : FindContext → FindM β} (h : Does W context (f context) s R P') :
    Does W context (read >>= f) s R P' := h

theorem does_query_bind {q : Store → α} {f : α → FindM β}
    (h : Does W context (f (q s.store)) s R P') : Does W context (query q >>= f) s R P' := h

end Bind

/-! ## Single steps -/

/-- A step that changes nothing but the store: variables come into use, and nothing else is found. -/
theorem does_of_run {act : FindM α} {a : α} {st : Store} (hs : s.Ready W context)
    (hrun : act context s = (a, { s with store := st })) (hends : DeclM.EndsWell s.store st) :
    Does W context act s (fun a' s' => a' = a ∧ s' = { s with store := st })
      fun _ _ s' S S' => S.vars = s.store.vars ∧ S' = { S with vars := s'.store.vars } := by
  unfold Does
  rw [hrun]
  refine ⟨[], ⟨hs.withStore hends, hends.1, List.prefix_rfl, List.prefix_rfl, rfl, by simp, le_rfl,
    Or.inl⟩, ⟨rfl, rfl⟩, fun _ T _ records _ => ?_⟩
  rw [List.append_nil]
  exact ⟨rfl, rfl⟩

/-- Types are built or instances made. -/
theorem does_build {act : StoreM α} {Q : α → Store → Prop} (hs : s.Ready W context)
    (hends : DeclM.EndsWell s.store (act s.store).2) (hQ : Q (act s.store).1 (act s.store).2) :
    Does W context (build act) s (fun a s' => s'.scopes = s.scopes ∧ Q a s'.store)
      fun _ _ s' S S' => S.vars = s.store.vars ∧ S' = { S with vars := s'.store.vars } := by
  have hrun : build act context s = ((act s.store).1, { s with store := (act s.store).2 }) := rfl
  refine (does_of_run hs hrun hends).mono ?_ fun _ _ _ _ _ _ _ _ _ h => h
  rintro _ _ - - ⟨rfl, rfl⟩
  exact ⟨rfl, hQ⟩

/-- Types are built. -/
theorem does_builds {act : StoreM α} {Q : α → Store → Prop} (hs : s.Ready W context)
    (hbuilds : act.Builds) (hQ : Q (act s.store).1 (act s.store).2) :
    Does W context (build act) s (fun a s' => s'.scopes = s.scopes ∧ Q a s'.store)
      fun _ _ s' S S' => S.vars = s.store.vars ∧ S' = { S with vars := s'.store.vars } := by
  obtain ⟨hle, hnom⟩ := hbuilds s.store
  exact does_build hs ⟨.of_nominals hle hnom, hs.implements.coherent.of_nominals hle hnom⟩ hQ

/-- A type that is no variable is built: nothing new is found. -/
theorem does_intern {shape : Shape TypeId} {t : Store → TypeTree} (hs : s.Ready W context)
    (hshape : shape.isVar = false) (hlt : (intern shape s.store).1 < (intern shape s.store).2.size)
    (htree : (intern shape s.store).2.tree (intern shape s.store).1 = t s.store) 
    (ht : ∀ T, s.store ≤ T → t T = t s.store) :
    Does W context (build (intern shape)) s
      (fun ty s' => s'.scopes = s.scopes ∧ ty < s'.store.size)
      fun T ty _ S S' => S' = S ∧ T.tree ty = t T := by
  refine (does_builds (Q := fun ty st => ty < st.size ∧ st.tree ty = t s.store ∧
    st.vars = s.store.vars) hs (builds_intern shape) ⟨hlt, htree, vars_intern hshape⟩).mono ?_ ?_
  · rintro ty s' - - ⟨hscopes, hty, -⟩
    exact ⟨hscopes, hty⟩
  · rintro T ty s' S _ - hadv hT ⟨-, hty, hread, hvars⟩ ⟨hS, rfl⟩
    refine ⟨?_, ?_⟩
    · rw [hvars, ← hS]
    · rw [tree_of_le hT hty, hread, ht T (hadv.le.trans hT)]

/-- New variables come into use. -/
theorem introduces_of_newVars {st st' T : Store} {vs : List TypeId} {S : Found} (hle : st ≤ st')
    (hT : st' ≤ T) (hnew : NewVars st st' vs) (hS : S.vars = st.vars) :
    ∃ xs, vs.map T.tree = xs.map var ∧ S.Introduces { S with vars := st'.vars } xs := by
  obtain ⟨xs, hxs, hnodup, hfresh, hnotMem, hmem⟩ := hnew.exists_idents hle
  refine ⟨xs, ?_, ⟨hS ▸ vars_subset_of_le hle, rfl, rfl, rfl⟩, hnodup, hfresh, hS ▸ hnotMem, hmem⟩
  rw [← hxs]
  exact map_tree_of_le hT fun v hv => hnew.lt_size hv

/-- A new variable comes into use. -/
theorem does_freshVar (hs : s.Ready W context) :
    Does W context freshVar s (fun v s' => s'.scopes = s.scopes ∧ v < s'.store.size)
      fun T v _ S S' => ∃ x, T.tree v = var x ∧ S.Introduces S' [x] := by
  refine (does_builds (Q := fun v st => NewVars s.store st [v]) hs builds_freshVar
    (newVars_freshVar s.store)).mono ?_ ?_
  · rintro v s' - - ⟨hscopes, hnew⟩
    exact ⟨hscopes, hnew.lt_size (List.mem_singleton_self v)⟩
  · rintro T v s' S _ - hadv hT ⟨-, hnew⟩ ⟨hS, rfl⟩
    obtain ⟨xs, hxs, hintro⟩ := introduces_of_newVars hadv.le hT hnew hS
    obtain ⟨x, rfl⟩ : ∃ x, xs = [x] := by
      have hlen := congrArg List.length hxs
      rw [List.length_map, List.length_map] at hlen
      exact List.length_eq_one_iff.mp hlen.symm
    exact ⟨x, (List.cons.inj hxs).1, hintro⟩

/-- As many new variables as a list has elements. -/
theorem does_freshVars {γ : Type} (xs : List γ) (hs : s.Ready W context) :
    Does W context (build (xs.mapM fun _ => StoreM.freshVar)) s
      (fun vs s' => s'.scopes = s.scopes ∧ vs.length = xs.length ∧ ∀ v ∈ vs, v < s'.store.size)
      fun T vs _ S S' => ∃ ys, vs.map T.tree = ys.map var ∧ S.Introduces S' ys := by
  obtain ⟨hnew, hlen⟩ := newVars_mapM xs s.store
  refine (does_builds (Q := fun vs st => NewVars s.store st vs ∧ vs.length = xs.length) hs
    (builds_mapM (fun _ => builds_freshVar) xs) ⟨hnew, hlen⟩).mono ?_ ?_
  · rintro vs s' - - ⟨hscopes, hnew, hlen⟩
    exact ⟨hscopes, hlen, fun v hv => hnew.lt_size hv⟩
  · rintro T vs s' S _ - hadv hT ⟨-, hnew, -⟩ ⟨hS, rfl⟩
    exact introduces_of_newVars hadv.le hT hnew hS

/-- After a fault there is nothing to say about what was found. -/
theorem does_fault (f : TypeFault) (hs : s.Ready W context)
    {P : Store → TypeId → FindState → Found → Found → Prop} :
    Does W context (fault f) s (fun a s' => s'.scopes = s.scopes ∧ a < s'.store.size) P := by
  refine ⟨[], ⟨⟨hs.implements, hs.names, hs.context, hs.constraints, hs.obligations, hs.sites, hs.frames,
    hs.locals⟩, .refl _, List.prefix_rfl, List.prefix_rfl, rfl, by simp, Nat.le_succ _, Or.inl⟩,
    ⟨rfl, lt_size_of_prim .error⟩, fun herr => absurd herr (Nat.succ_ne_self _)⟩

/-- A count is checked: if it is wrong, an error is reported, and what comes then does not matter. -/
theorem does_check_bind {c : Prop} [Decidable c] (f : TypeFault) {k : PUnit → FindM β}
    {R : β → FindState → Prop} {P' : Store → β → FindState → Found → Found → Prop}
    (hs : s.Ready W context)
    (hk : ∀ s', s'.Ready W context → s'.scopes = s.scopes → s'.store = s.store →
      Does W context (k ⟨⟩) s' R fun T b s'' S S' => ¬ c → P' T b s'' S S') :
    Does W context (if c then incomplete f >>= k else k ⟨⟩) s R P' := by
  by_cases hc : c
  · rw [if_pos hc]
    have hgoes : s.Goes W context (incomplete f context s).2 [] :=
      ⟨⟨hs.implements, hs.names, hs.context, hs.constraints, hs.obligations, hs.sites, hs.frames, hs.locals⟩,
        .refl _, List.prefix_rfl, List.prefix_rfl, rfl, by simp, Nat.le_succ _,
        fun _ => .inr (Nat.lt_succ_self _)⟩
    obtain ⟨new, hgoes', hr, -⟩ := hk _ hgoes.ready rfl rfl
    refine ⟨[] ++ new, hgoes.trans hgoes', hr, fun herr => ?_⟩
    have hlt : s.log.errorCount < (incomplete f context s).2.log.errorCount := Nat.lt_succ_self _
    exact absurd herr (Nat.ne_of_gt (hlt.trans_le hgoes'.errors))
  · rw [if_neg hc]
    exact (hk s hs rfl rfl).imp fun T b s' S S' _ _ _ _ h => h hc

theorem goes_push {c : Constraint} (hs : s.Ready W context) (hc : c.Within s.store)
    (ho : ∀ o, c.obligation? = some o → o.1 < s.store.size) :
    s.Goes W context { s with finding.constraints := s.finding.constraints.push c } [] where
  ready :=
    { hs with
      constraints := by
        intro d hd
        rw [Array.toList_push, List.mem_append, List.mem_singleton] at hd
        rcases hd with hd | rfl
        · exact hs.constraints d hd
        · exact hc
      obligations := by
        intro d hd
        rw [Array.toList_push, List.mem_append, List.mem_singleton] at hd
        rcases hd with hd | rfl
        · exact hs.obligations d hd
        · exact ho }
  store := .refl _
  constraints := ⟨[c], Array.toList_push.symm⟩
  sites := List.prefix_rfl
  exprTypes := rfl
  records := by simp
  errors := le_rfl
  incomplete := Or.inl

theorem found_push (s : FindState) (c : Constraint) (T : Store)
    (records : List (ExprId × TypeId)) :
    FindState.found { s with finding.constraints := s.finding.constraints.push c } T records =
      (s.found T records).askAll (c.equation? T).toList := by
  unfold FindState.found Found.askAll
  simp only [Array.toList_push, List.filterMap_append]
  cases c <;> rfl

/-- Two types are asked to be equal. -/
theorem does_equal {l r : TypeId} (span : Span) (reason : Reason) (hs : s.Ready W context)
    (hl : l < s.store.size) (hr : r < s.store.size) :
    Does W context (equal l r span reason) s
      (fun _ s' => s'.scopes = s.scopes ∧ s'.store = s.store)
      fun T _ _ S S' => S' = S.ask (T.tree l) (T.tree r) := by
  refine ⟨[], goes_push hs ?_ (fun o ho => by cases ho), ⟨rfl, rfl⟩, fun _ T _ records _ => ?_⟩
  · rintro _ _ _ _ ⟨⟩
    exact ⟨hl, hr⟩
  · rw [List.append_nil]
    exact found_push s (.equal l r span reason) T records

theorem does_oblige {obligation : TypeId} (span : Span) (hs : s.Ready W context)
    (hlt : obligation < s.store.size) :
    Does W context (oblige obligation span) s
      (fun _ s' => s'.scopes = s.scopes ∧ s'.store = s.store) fun _ _ _ S S' => S' = S := by
  refine ⟨[], goes_push hs ?_ ?_, ⟨rfl, rfl⟩, fun _ T _ records _ => ?_⟩
  · rintro _ _ _ _ ⟨⟩
  · rintro _ ⟨⟩
    exact hlt
  · rw [List.append_nil]
    refine (found_push s (.implemented obligation span) T records).trans ?_
    exact congrArg (fun eqs => { s.found T records with equations := eqs }) (List.append_nil _)

/-- The type of an expression is recorded. -/
theorem does_record (id : ExprId) {ty : TypeId} (hs : s.Ready W context)
    (hty : ty < s.store.size) :
    Does W context (record id ty) s
      (fun a s' => s'.scopes = s.scopes ∧ s'.store = s.store ∧ a = ty)
      fun T _ _ S S' => S' = S.record id (T.tree ty) := by
  refine ⟨[(id, ty)], ⟨⟨hs.implements, hs.names, hs.context, hs.constraints, hs.obligations, hs.sites, hs.frames,
    hs.locals⟩, .refl _, List.prefix_rfl, List.prefix_rfl, rfl, ?_, le_rfl, Or.inl⟩,
    ⟨rfl, rfl, rfl⟩, fun _ T _ records _ => ?_⟩
  · rintro _ hr
    rw [List.mem_singleton.mp hr]
    exact hty
  · refine congrArg (fun rs => { s.found T records with records := rs }) ?_
    rw [List.map_append]
    rfl

/-- A call of a constrained function is noted. -/
theorem does_site (id : ExprId) {callee : TypeId} {sig : Signature TypeId} (span : Span)
    (hs : s.Ready W context) (hcallee : callee < s.store.size)
    (hsig : s.store.shape callee = .function sig) :
    Does W context (modify fun s =>
        { s with finding.callSites := s.finding.callSites.push ⟨id, callee, span⟩ }) s
      (fun _ s' => s'.scopes = s.scopes ∧ s'.store = s.store)
      fun T _ _ S S' => S' = S.site id (T.tree callee) := by
  refine ⟨[], ⟨⟨hs.implements, hs.names, hs.context, hs.constraints, hs.obligations, ?_, hs.frames, hs.locals⟩,
    .refl _, List.prefix_rfl, ⟨_, Array.toList_push.symm⟩, rfl, by simp, le_rfl, Or.inl⟩,
    ⟨rfl, rfl⟩, fun _ T _ records _ => ?_⟩
  · intro c hc
    rcases List.mem_append.mp (Array.toList_push ▸ hc) with hc | hc
    · exact hs.sites c hc
    · rw [List.mem_singleton.mp hc]
      exact ⟨hcallee, sig, hsig⟩
  · rw [List.append_nil]
    refine congrArg (fun sites => { s.found T records with sites }) ?_
    show (s.finding.callSites.push ⟨id, callee, span⟩).toList.map _ = _
    rw [Array.toList_push, List.map_append]
    rfl

/-- Only the scopes change. -/
theorem does_rescope {scopes : Scopes} (hs : s.Ready W context) (hframes : scopes.frames ≠ [])
    (hlocals : ∀ b ∈ scopes.frames.flatten, b.2 < s.store.size)
    (hact : act context s = ((act context s).1, { s with scopes })) :
    Does W context act s (fun _ s' => s'.scopes = scopes ∧ s'.store = s.store)
      fun _ _ _ S S' => S' = S := by
  unfold Does
  rw [hact]
  refine ⟨[], ⟨⟨hs.implements, hs.names, hs.context, hs.constraints, hs.obligations, hs.sites, hframes, hlocals⟩,
    .refl _, List.prefix_rfl, List.prefix_rfl, rfl, by simp, le_rfl, Or.inl⟩, ⟨rfl, rfl⟩,
    fun _ T _ records _ => ?_⟩
  rw [List.append_nil]
  rfl

theorem does_bindName (name : Name) {ty : TypeId} (hs : s.Ready W context)
    (hty : ty < s.store.size) :
    Does W context (FindM.bind name ty) s
      (fun _ s' => s'.scopes = s.scopes.bind name ty ∧ s'.store = s.store)
      fun _ _ _ S S' => S' = S := by
  obtain ⟨hflat, hne, -⟩ := Scopes.bind_spec hs.frames name ty
  refine does_rescope hs hne ?_ rfl
  rw [hflat]
  exact List.forall_mem_cons.mpr ⟨hty, hs.locals⟩

theorem does_enterScope (hs : s.Ready W context) :
    Does W context enterScope s (fun _ s' => s'.scopes = s.scopes.enter ∧ s'.store = s.store)
      fun _ _ _ S S' => S' = S :=
  does_rescope hs (List.cons_ne_nil _ _) hs.locals rfl

theorem does_exitScope (hs : s.Ready W context) (h : s.scopes.exit.frames ≠ []) :
    Does W context exitScope s (fun _ s' => s'.scopes = s.scopes.exit ∧ s'.store = s.store)
      fun _ _ _ S S' => S' = S := by
  refine does_rescope hs h (fun b hb => hs.locals b ?_) rfl
  obtain ⟨frame, hframe, hb⟩ := List.mem_flatten.mp hb
  exact List.mem_flatten.mpr ⟨frame, List.mem_of_mem_tail hframe, hb⟩

end FindM

end ConstraintTyping
