import ConstraintTyping.Proofs.Infer.Group

/-!
# Calls of functions with obligations

A walk notes a call when it knows the callee to be a function that asks something of its callers.  So
it notes every call of a name that stands for a function, directly or through definitions that give a
function another name.  Each call is noted under the number of its expression.

Which names are local, and for what they stand, is said here by the tree alone.
-/

namespace ConstraintTyping

open TypeTree

/-! ## What names stand for -/

/-- Local names in scope, the innermost first.  One that a definition without a written type binds to
the name of a function stands for that function. -/
abbrev Locals := List (Name × Option Name)

/-- What a name stands for: a local name possibly for a function, any other name for itself. -/
def Locals.function? (L : Locals) (name : Name) : Option Name := (L.lookup name).getD (some name)

/-- The function that an expression is a name of. -/
def ExprForm.function? (L : Locals) : ExprForm → Option Name
  | .ident name => L.function? name
  | _ => none

/-- The local names that parameters bind. -/
def Locals.bindParams (L : Locals) (params : List Param) : Locals :=
  (params.map fun p => (p.name, none)).reverse ++ L

mutual

/-- The nodes of an expression with the local names at each, and the local names after it. -/
def Expr.scoped (L : Locals) : Expr → List (Locals × Expr) × Locals
  | .mk id span form => ((L, .mk id span form) :: (form.scoped L).1, (form.scoped L).2)

/-- The nodes below an expression. -/
def ExprForm.scoped (L : Locals) : ExprForm → List (Locals × Expr) × Locals
  | .int _ _ | .float _ _ | .bool _ | .char _ | .string _ | .unit | .ident _ => ([], L)
  | .unary _ e | .field e _ | .ascribe e _ => e.scoped L
  | .define name written init =>
    let known := if written.isNone then init.form.function? L else none
    ((init.scoped L).1, (name, known) :: (init.scoped L).2)
  | .binary _ l r | .assign l r | .loop l r | .ifThen l r =>
    let first := l.scoped L
    let second := r.scoped first.2
    (first.1 ++ second.1, second.2)
  | .ifElse condition thenBranch elseBranch =>
    let first := condition.scoped L
    let second := thenBranch.scoped first.2
    let third := elseBranch.scoped second.2
    (first.1 ++ second.1 ++ third.1, third.2)
  | .call callee args =>
    let first := callee.scoped L
    let rest := scopedAll first.2 args
    (first.1 ++ rest.1, rest.2)
  | .construct _ items | .tuple items | .array items => scopedAll L items
  | .block items => ((scopedAll L items).1, L)
  | .select scrutinee arms =>
    let first := scrutinee.scoped L
    (first.1 ++ scopedArms first.2 arms, first.2)
  | .lambda params body => ((body.scoped (L.bindParams params)).1, L)

/-- The nodes of expressions, one after the other. -/
def scopedAll (L : Locals) : List Expr → List (Locals × Expr) × Locals
  | [] => ([], L)
  | e :: rest =>
    let first := e.scoped L
    let others := scopedAll first.2 rest
    (first.1 ++ others.1, others.2)

/-- The nodes of arms, each in a scope of its own. -/
def scopedArms (L : Locals) : List Arm → List (Locals × Expr)
  | [] => []
  | .mk pattern body _ :: rest =>
    let first := pattern.scoped L
    first.1 ++ (body.scoped first.2).1 ++ scopedArms L rest

/-- The nodes of a pattern, with the local names that it binds after it. -/
def Pattern.scoped (L : Locals) : Pattern → List (Locals × Expr) × Locals
  | .wildcard _ => ([], L)
  | .binding _ name => ([], (name, none) :: L)
  | .literal _ expr => expr.scoped L
  | .tuple _ items | .tag _ _ items => scopedPatterns L items

/-- The nodes of patterns, one after the other. -/
def scopedPatterns (L : Locals) : List Pattern → List (Locals × Expr) × Locals
  | [] => ([], L)
  | p :: rest =>
    let first := p.scoped L
    let others := scopedPatterns first.2 rest
    (first.1 ++ others.1, others.2)

end

/-- The nodes of the body of a function, with the local names at each. -/
def FunctionDecl.scoped (f : FunctionDecl) : List (Locals × Expr) :=
  (f.body.map fun body => (body.scoped (Locals.bindParams [] f.params)).1).getD []

/-! ## Walks keep track -/

/-- A type at which a name can be found: its own type, its variables possibly renamed. -/
def Surroundings.TypeOf (W : Surroundings) (name : Name) (t : TypeTree) : Prop :=
  ∃ (s : Scheme) (ρ : VarIdent → VarIdent), W.names name = some s ∧
    t = s.type.subst fun x => var (ρ x)

/-- Local names have the types of the functions for which they stand. -/
def Surroundings.Tracks (W : Surroundings) (Γ : Env) (L : Locals) : Prop :=
  List.Forall₂ (fun b l => b.1 = l.1 ∧ ∀ name ∈ l.2, W.TypeOf name b.2) Γ L

/-- Nodes are walked with the local names at them, in the course of a walk. -/
def Surroundings.Visits (W : Surroundings) (S' : Found) (nodes : List (Locals × Expr)) : Prop :=
  ∀ node ∈ nodes, ∃ (S : Found) (Γ : Env) (t : TypeTree) (S₁ : Found) (Δ : Env),
    Finds W S Γ node.2 t S₁ Δ ∧ W.Tracks Γ node.1 ∧ S₁.Grows S'

section Track

variable {W : Surroundings} {S S' total : Found} {Γ Δ : Env} {L : Locals} {t : TypeTree}
  {name g : Name} {nodes nodes' : List (Locals × Expr)}

theorem Surroundings.Visits.grows (h : W.Visits S' nodes) (hle : S'.Grows total) :
    W.Visits total nodes := by
  intro node hnode
  obtain ⟨S, Γ, t, S₁, Δ, hfinds, htracks, hgrows⟩ := h node hnode
  exact ⟨S, Γ, t, S₁, Δ, hfinds, htracks, hgrows.trans hle⟩

theorem Surroundings.visits_nil : W.Visits S' [] := by
  simp [Surroundings.Visits]

theorem Surroundings.Visits.append (h : W.Visits S' nodes) (h' : W.Visits S' nodes') :
    W.Visits S' (nodes ++ nodes') :=
  List.forall_mem_append.mpr ⟨h, h'⟩

/-- A name is local in the one sense exactly when it is in the other. -/
theorem Surroundings.Tracks.lookup (h : W.Tracks Γ L) :
    Γ.lookup name = none ∧ L.lookup name = none ∨
      ∃ t known, Γ.lookup name = some t ∧ L.lookup name = some known ∧
        ∀ g ∈ known, W.TypeOf g t := by
  induction h with
  | nil => exact .inl ⟨rfl, rfl⟩
  | @cons b l Γ L hhead _ ih =>
    obtain ⟨b, t⟩ := b
    obtain ⟨l, known⟩ := l
    obtain ⟨rfl, hknown⟩ := hhead
    simp only [List.lookup_cons]
    cases name == b with
    | true => exact .inr ⟨t, known, rfl, rfl, hknown⟩
    | false => exact ih

theorem Surroundings.Tracks.bind (h : W.Tracks Γ L) (name : Name) (t : TypeTree) :
    W.Tracks ((name, t) :: Γ) ((name, none) :: L) :=
  .cons ⟨rfl, by simp⟩ h

theorem Surroundings.Tracks.bindParams (h : W.Tracks Γ L) {params : List Param}
    {ts : List TypeTree} (hlen : params.length = ts.length) :
    W.Tracks (Γ.bindParams params ts) (L.bindParams params) := by
  refine List.rel_append ?_ h
  rw [List.forall₂_reverse_iff]
  induction params generalizing ts with
  | nil => exact .nil
  | cons p params ih =>
    cases ts with
    | nil => cases hlen
    | cons t ts => exact .cons ⟨rfl, by simp⟩ (ih (Nat.succ.inj hlen))

theorem ParamsFind.length_eq {D : Declarations} {params : List Param} {ts : List TypeTree}
    (h : ParamsFind D S params ts S') : params.length = ts.length := by
  induction h with
  | nil => rfl
  | written _ _ _ ih => exact congrArg (· + 1) ih
  | plain _ _ _ ih => exact congrArg (· + 1) ih

/-- An expression that is a name of a function has the type of that function. -/
theorem FormFinds.typeOf {id : ExprId} {form : ExprForm} (h : FormFinds W id S Γ form t S' Δ)
    (htracks : W.Tracks Γ L) (hform : form.function? L = some g) : W.TypeOf g t := by
  have hlookup := fun name => @Surroundings.Tracks.lookup _ _ _ name htracks
  cases h with
  | @localName _ _ _ name _ hlocal =>
    obtain ⟨hnone, -⟩ | ⟨t', known, ht', hknown, htype⟩ := hlookup name
    · rw [hnone] at hlocal
      cases hlocal
    · obtain rfl := Option.some.inj (ht'.symm.trans hlocal)
      rw [ExprForm.function?, Locals.function?, hknown] at hform
      exact htype g hform
  | @generalName _ _ _ _ name s _ hglobal hname hcopies =>
    obtain ⟨-, hnone⟩ | ⟨t', -, ht', -⟩ := hlookup name
    · rw [ExprForm.function?, Locals.function?, hnone] at hform
      obtain rfl := Option.some.inj hform
      obtain ⟨ρ, -, rfl⟩ := hcopies.renames
      exact ⟨_, ρ, hname, rfl⟩
    · rw [hglobal] at ht'
      cases ht'
  | @fixedName _ _ _ name _ hglobal hname =>
    obtain ⟨-, hnone⟩ | ⟨t', -, ht', -⟩ := hlookup name
    · rw [ExprForm.function?, Locals.function?, hnone] at hform
      obtain rfl := Option.some.inj hform
      exact ⟨_, fun x => x, hname, (subst_var_eq_self t).symm⟩
    · rw [hglobal] at ht'
      cases ht'
  | literal hlit => cases hlit <;> cases hform
  | _ => cases hform

end Track

section Visits

variable {W : Surroundings}

mutual

/-- A walk over an expression visits its nodes with the local names at each. -/
theorem Finds.visits {S S' : Found} {Γ Δ : Env} {L : Locals} {e : Expr} {t : TypeTree}
    (h : Finds W S Γ e t S' Δ) (hΓ : W.Tracks Γ L) :
    W.Visits S' (e.scoped L).1 ∧ W.Tracks Δ (e.scoped L).2 := by
  have hself := h
  cases h with
  | mk h hreaches =>
    obtain ⟨hbelow, hΔ⟩ := h.visits hΓ
    rw [Expr.scoped]
    refine ⟨List.forall_mem_cons.mpr ⟨⟨S, Γ, t, _, Δ, hself, hΓ, .refl _⟩, ?_⟩, hΔ⟩
    exact hbelow.grows (Found.grows_record ..)

theorem FormFinds.visits {id : ExprId} {S S' : Found} {Γ Δ : Env} {L : Locals} {form : ExprForm}
    {t : TypeTree} (h : FormFinds W id S Γ form t S' Δ) (hΓ : W.Tracks Γ L) :
    W.Visits S' (form.scoped L).1 ∧ W.Tracks Δ (form.scoped L).2 := by
  cases h with
  | literal hlit => cases hlit <;> exact ⟨Surroundings.visits_nil, hΓ⟩
  | localName _ => exact ⟨Surroundings.visits_nil, hΓ⟩
  | generalName _ _ ht => exact ⟨Surroundings.visits_nil, hΓ⟩
  | fixedName _ _ => exact ⟨Surroundings.visits_nil, hΓ⟩
  | call hcallee hargs hcall =>
    obtain ⟨hfirst, hΓ₁⟩ := hcallee.visits hΓ
    obtain ⟨hrest, hΔ⟩ := hargs.visits hΓ₁
    exact ⟨((hfirst.grows hargs.grows).append hrest).grows hcall.grows, hΔ⟩
  | logical _ hleft hright =>
    obtain ⟨hfirst, hΓ₁⟩ := hleft.visits hΓ
    obtain ⟨hrest, hΔ⟩ := hright.visits hΓ₁
    exact ⟨((hfirst.grows hright.grows).append hrest).grows
      ((Found.grows_ask ..).trans (Found.grows_ask ..)), hΔ⟩
  | overloaded _ hleft hright hx =>
    obtain ⟨hfirst, hΓ₁⟩ := hleft.visits hΓ
    obtain ⟨hrest, hΔ⟩ := hright.visits hΓ₁
    exact ⟨((hfirst.grows hright.grows).append hrest).grows
      (hx.toWidens.grows.trans ((Found.grows_ask ..).trans (Found.grows_ask ..))), hΔ⟩
  | neg hoperand hx =>
    obtain ⟨hfirst, hΔ⟩ := hoperand.visits hΓ
    exact ⟨hfirst.grows (hx.toWidens.grows.trans (Found.grows_ask ..)), hΔ⟩
  | not hoperand =>
    obtain ⟨hfirst, hΔ⟩ := hoperand.visits hΓ
    exact ⟨hfirst.grows (Found.grows_ask ..), hΔ⟩
  | addressOf hoperand => exact hoperand.visits hΓ
  | deref hoperand hx =>
    obtain ⟨hfirst, hΔ⟩ := hoperand.visits hΓ
    exact ⟨hfirst.grows (hx.toWidens.grows.trans (Found.grows_ask ..)), hΔ⟩
  | field hreceiver _ hopens _ _ =>
    obtain ⟨hfirst, hΔ⟩ := hreceiver.visits hΓ
    exact ⟨hfirst.grows (hopens.toWidens.grows.trans (Found.grows_ask ..)), hΔ⟩
  | construct hitems hopens _ =>
    obtain ⟨hfirst, hΔ⟩ := hitems.visits hΓ
    exact ⟨hfirst.grows (hopens.toWidens.grows.trans (Found.grows_askAll ..)), hΔ⟩
  | tuple hitems => exact hitems.visits hΓ
  | array hx hitems => exact hitems.visits hΓ
  | block hitems => exact ⟨(hitems.visits hΓ).1, hΓ⟩
  | ifThen hcondition hthen =>
    obtain ⟨hfirst, hΓ₁⟩ := hcondition.visits hΓ
    obtain ⟨hrest, hΔ⟩ := hthen.visits hΓ₁
    exact ⟨((hfirst.grows ((Found.grows_ask ..).trans hthen.grows)).append hrest).grows
      (Found.grows_ask ..), hΔ⟩
  | ifElse hcondition hthen helse =>
    obtain ⟨hfirst, hΓ₁⟩ := hcondition.visits hΓ
    obtain ⟨hsecond, hΓ₂⟩ := hthen.visits hΓ₁
    obtain ⟨hthird, hΔ⟩ := helse.visits hΓ₂
    have hboth := (hfirst.grows ((Found.grows_ask ..).trans hthen.grows)).append hsecond
    exact ⟨((hboth.grows helse.grows).append hthird).grows (Found.grows_ask ..), hΔ⟩
  | select hscrutinee hx harms =>
    obtain ⟨hfirst, hΔ⟩ := hscrutinee.visits hΓ
    exact ⟨(hfirst.grows (hx.toWidens.grows.trans harms.grows)).append (harms.visits hΔ), hΔ⟩
  | loop hcondition hbody =>
    obtain ⟨hfirst, hΓ₁⟩ := hcondition.visits hΓ
    obtain ⟨hrest, hΔ⟩ := hbody.visits hΓ₁
    exact ⟨(hfirst.grows ((Found.grows_ask ..).trans hbody.grows)).append hrest, hΔ⟩
  | @define _ _ _ _ _ name init t hinit =>
    obtain ⟨hfirst, hΔ⟩ := hinit.visits hΓ
    refine ⟨hfirst, .cons ⟨rfl, fun g hg => ?_⟩ hΔ⟩
    -- the defined name has the type of what it is defined as
    cases hinit with
    | mk hform _ => exact hform.typeOf hΓ hg
  | defineAs hinit hwritten =>
    obtain ⟨hfirst, hΔ⟩ := hinit.visits hΓ
    exact ⟨hfirst.grows (hwritten.toWidens.grows.trans (Found.grows_ask ..)), hΔ.bind _ _⟩
  | assign htarget hvalue =>
    obtain ⟨hfirst, hΓ₁⟩ := htarget.visits hΓ
    obtain ⟨hrest, hΔ⟩ := hvalue.visits hΓ₁
    exact ⟨((hfirst.grows hvalue.grows).append hrest).grows (Found.grows_ask ..), hΔ⟩
  | ascribe hexpr hwritten =>
    obtain ⟨hfirst, hΔ⟩ := hexpr.visits hΓ
    exact ⟨hfirst.grows (hwritten.toWidens.grows.trans (Found.grows_ask ..)), hΔ⟩
  | lambda hparams hbody =>
    exact ⟨(hbody.visits (hΓ.bindParams hparams.length_eq)).1, hΓ⟩

theorem AllFind.visits {S S' : Found} {Γ Δ : Env} {L : Locals} {es : List Expr}
    {ts : List TypeTree} (h : AllFind W S Γ es ts S' Δ) (hΓ : W.Tracks Γ L) :
    W.Visits S' (scopedAll L es).1 ∧ W.Tracks Δ (scopedAll L es).2 := by
  cases h with
  | nil => exact ⟨Surroundings.visits_nil, hΓ⟩
  | cons he hrest =>
    obtain ⟨hfirst, hΓ₁⟩ := he.visits hΓ
    obtain ⟨hothers, hΔ⟩ := hrest.visits hΓ₁
    exact ⟨(hfirst.grows hrest.grows).append hothers, hΔ⟩

theorem ElementsFind.visits {elem : TypeTree} {S S' : Found} {Γ Δ : Env} {L : Locals}
    {es : List Expr} {ts : List TypeTree} (h : ElementsFind W elem S Γ es ts S' Δ)
    (hΓ : W.Tracks Γ L) : W.Visits S' (scopedAll L es).1 ∧ W.Tracks Δ (scopedAll L es).2 := by
  cases h with
  | nil => exact ⟨Surroundings.visits_nil, hΓ⟩
  | cons he hrest =>
    obtain ⟨hfirst, hΓ₁⟩ := he.visits hΓ
    obtain ⟨hothers, hΔ⟩ := hrest.visits hΓ₁
    exact ⟨(hfirst.grows ((Found.grows_ask ..).trans hrest.grows)).append hothers, hΔ⟩

theorem ArmsFind.visits {s t : TypeTree} {S S' : Found} {Γ : Env} {L : Locals} {arms : List Arm}
    (h : ArmsFind W s t S Γ arms S') (hΓ : W.Tracks Γ L) : W.Visits S' (scopedArms L arms) := by
  cases h with
  | nil => exact Surroundings.visits_nil
  | cons hpattern hbody hrest =>
    obtain ⟨hfirst, hΓ₁⟩ := hpattern.visits hΓ
    obtain ⟨hsecond, -⟩ := hbody.visits hΓ₁
    have hboth := (hfirst.grows hbody.grows).append hsecond
    exact (hboth.grows ((Found.grows_ask ..).trans hrest.grows)).append (hrest.visits hΓ)

theorem PatternFinds.visits {S S' : Found} {Γ Δ : Env} {L : Locals} {p : Pattern} {s : TypeTree}
    (h : PatternFinds W S Γ p s S' Δ) (hΓ : W.Tracks Γ L) :
    W.Visits S' (p.scoped L).1 ∧ W.Tracks Δ (p.scoped L).2 := by
  cases h with
  | wildcard => exact ⟨Surroundings.visits_nil, hΓ⟩
  | binding => exact ⟨Surroundings.visits_nil, hΓ.bind _ _⟩
  | literal hexpr =>
    obtain ⟨hfirst, hΔ⟩ := hexpr.visits hΓ
    exact ⟨hfirst.grows (Found.grows_ask ..), hΔ⟩
  | tuple hxs hitems => exact hitems.visits hΓ
  | tag hopens hitems => exact hitems.visits hΓ

theorem PatternsFind.visits {S S' : Found} {Γ Δ : Env} {L : Locals} {ps : List Pattern}
    {ts : List TypeTree} (h : PatternsFind W S Γ ps ts S' Δ) (hΓ : W.Tracks Γ L) :
    W.Visits S' (scopedPatterns L ps).1 ∧ W.Tracks Δ (scopedPatterns L ps).2 := by
  cases h with
  | nil => exact ⟨Surroundings.visits_nil, hΓ⟩
  | cons hp hrest =>
    obtain ⟨hfirst, hΓ₁⟩ := hp.visits hΓ
    obtain ⟨hothers, hΔ⟩ := hrest.visits hΓ₁
    exact ⟨(hfirst.grows hrest.grows).append hothers, hΔ⟩

end

end Visits

/-! ## Calls are noted -/

/-- Calls are noted with numbers among those given. -/
def Found.Notes (S S' : Found) (ids : List ExprId) : Prop :=
  ∃ new, S'.sites = S.sites ++ new ∧ (new.map Prod.fst).Subperm ids

namespace Found.Notes

variable {S S₁ S' : Found} {ids ids' : List ExprId}

theorem of_eq (h : S'.sites = S.sites) : S.Notes S' ids :=
  ⟨[], by rw [h, List.append_nil], List.nil_subperm⟩

theorem trans (h : S.Notes S₁ ids) (h' : S₁.Notes S' ids') : S.Notes S' (ids ++ ids') := by
  obtain ⟨new, heq, hsub⟩ := h
  obtain ⟨new', heq', hsub'⟩ := h'
  refine ⟨new ++ new', by rw [heq', heq, List.append_assoc], ?_⟩
  rw [List.map_append]
  exact hsub.append hsub'

theorem widen (h : S.Notes S₁ ids) (h' : S'.sites = S₁.sites) : S.Notes S' ids := by
  obtain ⟨new, heq, hsub⟩ := h
  exact ⟨new, h'.trans heq, hsub⟩

theorem after (h : S₁.Notes S' ids) (h' : S₁.sites = S.sites) : S.Notes S' ids := by
  obtain ⟨new, heq, hsub⟩ := h
  exact ⟨new, by rw [heq, h'], hsub⟩

theorem cons (h : S.Notes S' ids) (id : ExprId) : S.Notes S' (id :: ids) := by
  obtain ⟨new, heq, hsub⟩ := h
  exact ⟨new, heq, hsub.cons_right id⟩

end Found.Notes

theorem CallFinds.notes {id : ExprId} {S S' : Found} {f t : TypeTree} {ts : List TypeTree}
    (h : CallFinds id S f ts t S') : S.Notes S' [id] := by
  cases h with
  | unknown _ hx => exact .of_eq hx.sites
  | @known S₁ S₂ sig _ x _ hsite hx =>
    have hsites : (S₂.ask (var x) sig.ret).sites = S₁.sites := hx.sites
    have hnotes : S.Notes S₁ [id] := by
      rw [hsite]
      split
      · exact .of_eq rfl
      · exact ⟨[_], rfl, List.Subperm.refl _⟩
    exact hnotes.widen hsites

section Notes

variable {W : Surroundings}

mutual

/-- A walk over an expression notes calls under the numbers of its tree, each at most once. -/
theorem Finds.notes {S S' : Found} {Γ Δ : Env} {e : Expr} {t : TypeTree}
    (h : Finds W S Γ e t S' Δ) : S.Notes S' (exprIds e.walk) := by
  cases h with
  | mk h _ =>
    rw [Expr.walk, exprIds_expr]
    exact h.notes

theorem FormFinds.notes {id : ExprId} {S S' : Found} {Γ Δ : Env} {form : ExprForm} {t : TypeTree}
    (h : FormFinds W id S Γ form t S' Δ) : S.Notes S' (id :: exprIds form.walkParts) := by
  cases h with
  | literal _ => exact .of_eq rfl
  | localName _ => exact .of_eq rfl
  | generalName _ _ ht => exact .of_eq ht.sites
  | fixedName _ _ => exact .of_eq rfl
  | call hcallee hargs hcall =>
    rw [ExprForm.walkParts, exprIds_append]
    obtain ⟨new, heq, hsub⟩ := (hcallee.notes.trans hargs.notes).trans hcall.notes
    exact ⟨new, heq, hsub.trans (List.perm_append_singleton id _).subperm⟩
  | logical _ hleft hright =>
    rw [ExprForm.walkParts, exprIds_append]
    exact (hleft.notes.trans hright.notes).cons id
  | overloaded _ hleft hright hx =>
    rw [ExprForm.walkParts, exprIds_append]
    exact ((hleft.notes.trans hright.notes).widen hx.sites).cons id
  | neg hoperand hx => exact (hoperand.notes.widen hx.sites).cons id
  | not hoperand => exact hoperand.notes.cons id
  | addressOf hoperand => exact hoperand.notes.cons id
  | deref hoperand hx => exact (hoperand.notes.widen hx.sites).cons id
  | field hreceiver _ hopens _ _ => exact (hreceiver.notes.widen hopens.sites).cons id
  | construct hitems hopens _ => exact (hitems.notes.widen hopens.sites).cons id
  | tuple hitems => exact hitems.notes.cons id
  | array hx hitems => exact (hitems.notes.after hx.sites).cons id
  | block hitems => exact hitems.notes.cons id
  | ifThen hcondition hthen =>
    rw [ExprForm.walkParts, exprIds_append]
    exact (hcondition.notes.trans hthen.notes).cons id
  | ifElse hcondition hthen helse =>
    rw [ExprForm.walkParts, exprIds_append, exprIds_append]
    exact ((hcondition.notes.trans hthen.notes).trans helse.notes).cons id
  | select hscrutinee hx harms =>
    rw [ExprForm.walkParts, exprIds_append]
    exact ((hscrutinee.notes.widen hx.sites).trans harms.notes).cons id
  | loop hcondition hbody =>
    rw [ExprForm.walkParts, exprIds_append]
    exact (hcondition.notes.trans hbody.notes).cons id
  | define hinit => exact hinit.notes.cons id
  | defineAs hinit hwritten => exact (hinit.notes.widen hwritten.sites).cons id
  | assign htarget hvalue =>
    rw [ExprForm.walkParts, exprIds_append]
    exact (htarget.notes.trans hvalue.notes).cons id
  | ascribe hexpr hwritten => exact (hexpr.notes.widen hwritten.sites).cons id
  | lambda hparams hbody =>
    rw [ExprForm.walkParts, exprIds_append, exprIds_params]
    exact (hbody.notes.after hparams.widens.sites).cons id

theorem AllFind.notes {S S' : Found} {Γ Δ : Env} {es : List Expr} {ts : List TypeTree}
    (h : AllFind W S Γ es ts S' Δ) : S.Notes S' (exprIds (walkExprs es)) := by
  cases h with
  | nil => exact .of_eq rfl
  | cons he hrest =>
    rw [walkExprs, exprIds_append]
    exact he.notes.trans hrest.notes

theorem ElementsFind.notes {elem : TypeTree} {S S' : Found} {Γ Δ : Env} {es : List Expr}
    {ts : List TypeTree} (h : ElementsFind W elem S Γ es ts S' Δ) :
    S.Notes S' (exprIds (walkExprs es)) := by
  cases h with
  | nil => exact .of_eq rfl
  | cons he hrest =>
    rw [walkExprs, exprIds_append]
    exact he.notes.trans hrest.notes

theorem ArmsFind.notes {s t : TypeTree} {S S' : Found} {Γ : Env} {arms : List Arm}
    (h : ArmsFind W s t S Γ arms S') : S.Notes S' (exprIds (walkArms arms)) := by
  cases h with
  | nil => exact .of_eq rfl
  | cons hpattern hbody hrest =>
    rw [walkArms, exprIds_arm, exprIds_append, exprIds_append]
    exact (hpattern.notes.trans hbody.notes).trans hrest.notes

theorem PatternFinds.notes {S S' : Found} {Γ Δ : Env} {p : Pattern} {s : TypeTree}
    (h : PatternFinds W S Γ p s S' Δ) : S.Notes S' (exprIds p.walk) := by
  cases h with
  | wildcard => exact .of_eq rfl
  | binding => exact .of_eq rfl
  | literal hexpr =>
    rw [Pattern.walk, exprIds_pattern]
    exact hexpr.notes
  | tuple hxs hitems =>
    rw [Pattern.walk, exprIds_pattern]
    exact hitems.notes.after hxs.sites
  | tag hopens hitems =>
    rw [Pattern.walk, exprIds_pattern]
    exact hitems.notes.after hopens.sites

theorem PatternsFind.notes {S S' : Found} {Γ Δ : Env} {ps : List Pattern} {ts : List TypeTree}
    (h : PatternsFind W S Γ ps ts S' Δ) : S.Notes S' (exprIds (walkPatterns ps)) := by
  cases h with
  | nil => exact .of_eq rfl
  | cons hp hrest =>
    rw [walkPatterns, exprIds_append]
    exact hp.notes.trans hrest.notes

end

/-- The calls in the bodies of a group are noted under the numbers of the bodies. -/
theorem GroupFinds.notes {T : Store} {S S' : Found} {members : List (FunctionDecl × TypeId)}
    (h : GroupFinds W T S members S') :
    S.Notes S' (members.flatMap fun m => m.1.subexprs.map Expr.id) := by
  induction h with
  | nil => exact .of_eq rfl
  | @cons S S₁ S' f ty sig body rest hsig hbody h _ ih =>
    obtain ⟨t, S₂, Δ, hfinds, rfl⟩ := h
    rw [List.flatMap_cons, subexprs_of_body hbody, ← exprIds_walk]
    exact hfinds.notes.trans ih

end Notes

end ConstraintTyping
