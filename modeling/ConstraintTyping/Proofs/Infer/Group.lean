import ConstraintTyping.Proofs.Infer.Records
import ConstraintTyping.Proofs.Infer.Simulation
import ConstraintTyping.Proofs.Infer.Soundness

/-!
# The bodies of a group

The members of a group are walked one after the other, each in a scope that holds its parameters, and
everything they ask for is solved together.  A solution types every body of the group.
-/

namespace ConstraintTyping

open Store StoreM TypeTree FindM

/-- The body of a function is walked with its parameters in scope, and must have the type of the
result. -/
def BodyFinds (W : Surroundings) (S : Found) (f : FunctionDecl) (body : Expr)
    (params : List TypeTree) (ret : TypeTree) (S' : Found) : Prop :=
  ∃ t S₁ Δ, Finds W S (Env.bindParams [] f.params params) body t S₁ Δ ∧ S' = S₁.ask ret t

/-- The bodies of a group are walked one after the other.  Each member comes with its function type,
read in a store. -/
inductive GroupFinds (W : Surroundings) (T : Store) :
    Found → List (FunctionDecl × TypeId) → Found → Prop
  | nil {S : Found} : GroupFinds W T S [] S
  | cons {S S₁ S' : Found} {f : FunctionDecl} {ty : TypeId} {sig : Signature TypeId} {body : Expr}
      {rest : List (FunctionDecl × TypeId)} (hsig : T.signature? ty = some sig)
      (hbody : f.body = some body)
      (h : BodyFinds W S f body (sig.params.map T.tree) (T.tree sig.ret) S₁)
      (hrest : GroupFinds W T S₁ rest S') : GroupFinds W T S ((f, ty) :: rest) S'

section Trees

variable {W : Surroundings} {T : Store} {S S' total : Found} {J : Typing}
  {members : List (FunctionDecl × TypeId)}

theorem subexprs_of_body {f : FunctionDecl} {body : Expr} (h : f.body = some body) :
    f.subexprs = body.subexprs := by
  have hparams : (f.params.map TreeNode.param).filterMap TreeNode.expr? = [] := by
    simp [List.filterMap_map, Function.comp_def, TreeNode.expr?]
  unfold FunctionDecl.subexprs FunctionDecl.walk Expr.subexprs
  rw [h, List.cons_append, List.filterMap_cons_none rfl, List.filterMap_append, hparams]
  rfl

theorem BodyFinds.grows {f : FunctionDecl} {body : Expr} {params : List TypeTree} {ret : TypeTree}
    (h : BodyFinds W S f body params ret S') : S.Grows S' := by
  obtain ⟨t, S₁, Δ, hfinds, rfl⟩ := h
  exact hfinds.grows.trans (Found.grows_ask ..)

theorem GroupFinds.grows (h : GroupFinds W T S members S') : S.Grows S' := by
  induction h with
  | nil => exact .refl _
  | cons _ _ hbody _ ih => exact hbody.grows.trans ih

/-- The numbers on record are those of the bodies. -/
theorem GroupFinds.adds (h : GroupFinds W T S members S') :
    S.Adds S' (members.flatMap fun m => m.1.subexprs.map Expr.id) := by
  induction h with
  | nil => exact .of_eq rfl
  | @cons S S₁ S' f ty sig body rest hsig hbody h _ ih =>
    obtain ⟨t, S₂, Δ, hfinds, rfl⟩ := h
    rw [List.flatMap_cons, subexprs_of_body hbody, ← exprIds_walk]
    exact (hfinds.adds.ask ..).trans ih

/-- The walk over one member, as a part of the walk over the group. -/
theorem GroupFinds.member (h : GroupFinds W T S members S') {f : FunctionDecl} {ty : TypeId}
    (hmem : (f, ty) ∈ members) : ∃ sig body S₁ S₂, T.signature? ty = some sig ∧
      f.body = some body ∧ S.Grows S₁ ∧
      BodyFinds W S₁ f body (sig.params.map T.tree) (T.tree sig.ret) S₂ ∧ S₂.Grows S' := by
  induction h with
  | nil => cases hmem
  | @cons S S₁ S' g ty' sig body rest hsig hbody h hrest ih =>
    rcases List.mem_cons.mp hmem with heq | hmem
    · cases heq
      exact ⟨sig, body, S, S₁, hsig, hbody, .refl _, h, hrest.grows⟩
    · obtain ⟨sig', body', S₂, S₃, hsig', hbody', hgrows, hfinds, hle⟩ := ih hmem
      exact ⟨sig', body', S₂, S₃, hsig', hbody', h.grows.trans hgrows, hfinds, hle⟩

/-- A body whose equations are solved has the type of the result. -/
theorem BodyFinds.sound (hJ : J.Solves W total) {f : FunctionDecl} {body : Expr}
    {params : List TypeTree} {ret : TypeTree} (h : BodyFinds W S f body params ret S')
    (hle : S'.Grows total) :
    ∃ t Δ, HasType J (Env.bindParams [] f.params (params.map (subst J.vars))) body t Δ ∧
      J.Agrees (ret.subst J.vars) t := by
  obtain ⟨t, S₁, Δ, hfinds, rfl⟩ := h
  have htyped := (hfinds.confirms hJ).sound ((Found.grows_ask ..).trans hle)
  rw [Env.subst_bindParams] at htyped
  exact ⟨_, _, htyped, hJ.ask hle⟩

/-- Bindings that solve the equations in order make a typing that solves what was found. -/
theorem Typing.Solves.of_inOrder {limit : Nat} {last : Bound}
    (horder : SolvesInOrder limit [] total.equations last)
    (hvars : J.vars = fun x => applyAll last (var x)) (hdecls : J.declarations = W.declarations)
    (hagrees : J.Agrees = TypeTree.Compatible) (hmeta : J.callsMeta = true)
    (hrecords : ∀ r ∈ total.records, J.exprType r.1 = applyAll last r.2)
    (hgeneral : ∀ {name : Name} {g : TypeTree} (φ : VarIdent → TypeTree),
      W.names name = some ⟨g, true⟩ → J.Uses name (g.subst φ))
    (hfixed : ∀ {name : Name} {g : TypeTree}, W.names name = some ⟨g, false⟩ →
      J.Uses name (applyAll last g)) : J.Solves W total where
  declarations := hdecls
  agrees := hagrees
  callsMeta := hmeta
  equations p hp := by
    rw [hvars, ← applyAll_eq_subst, ← applyAll_eq_subst]
    exact horder.compatible p hp
  pinned := by
    intro pre post x l htotal hpre hl
    rw [htotal] at horder
    rw [hvars, ← applyAll_eq_subst]
    exact horder.pinned (by simp [Bound.Avoids]) hpre hl
  records r hr := by
    rw [hvars, ← applyAll_eq_subst]
    exact hrecords r hr
  general := hgeneral
  fixed h := by
    rw [hvars, ← applyAll_eq_subst]
    exact hfixed h

end Trees

/-! ## Over a store -/

namespace FindM

variable {W : Surroundings} {context : FindContext} {s : FindState}

/-- Parameters are bound to types that are there already. -/
theorem does_forM_bind (pairs : List (Param × TypeId)) (hs : s.Ready W context)
    (hpairs : ∀ p ∈ pairs, p.2 < s.store.size) :
    Does W context (pairs.forM fun (param, ty) => FindM.bind param.name ty) s
      (fun _ s' => s'.store = s.store ∧ s'.scopes.exit = s.scopes.exit ∧
        ∀ T, s'.scopes.env T =
          (pairs.map fun p => (p.1.name, T.tree p.2)).reverse ++ s.scopes.env T)
      fun _ _ _ S S' => S' = S := by
  induction pairs generalizing s with
  | nil => exact does_pure hs ⟨rfl, rfl, fun _ => rfl⟩ fun _ _ _ => rfl
  | cons p pairs ih =>
    obtain ⟨hp, hpairs⟩ := List.forall_mem_cons.mp hpairs
    refine (does_bindName p.1.name hs hp).bind fun _ s₁ hs₁ _ hq => ?_
    obtain ⟨hscopes, hstore⟩ := hq
    refine (ih hs₁ (by rw [hstore]; exact hpairs)).mono ?_ ?_
    · rintro _ s' - - ⟨hstore', hexit, henv⟩
      refine ⟨hstore'.trans hstore, ?_, fun T => ?_⟩
      · rw [hexit, hscopes, (Scopes.bind_spec hs.frames p.1.name p.2).2.2]
      · rw [henv, hscopes, Scopes.env_bind T hs.frames]
        simp
    · rintro T _ s' S₁ S' - - - - rfl - S rfl
      rfl

/-- The body of a function is walked and the scopes are left as they were. -/
theorem does_functionRule {f : FunctionDecl} {ty : TypeId} {sig : Signature TypeId} {body : Expr}
    (hs : s.Ready W context) (hscopes : s.scopes = {}) (hsig : s.store.signature? ty = some sig)
    (hty : ty < s.store.size) (hbody : f.body = some body) :
    Does W context (functionRule f ty) s (fun _ s' => s'.scopes = {})
      fun T _ _ S S' => BodyFinds W S f body (sig.params.map T.tree) (T.tree sig.ret) S' := by
  have hchildren : ∀ c ∈ sig.children, c < s.store.size := by
    intro c hc
    refine lt_size_of_mem_children hty ?_
    show c ∈ (s.store.shape ty).children
    rw [shape_of_signature? hsig]
    exact hc
  have hparams : ∀ p ∈ sig.params, p < s.store.size := fun p hp =>
    hchildren p (by simp [Signature.children, hp])
  have hret : sig.ret < s.store.size := hchildren _ (by simp [Signature.children])
  unfold functionRule
  refine does_query_bind ?_
  rw [hsig, hbody]
  refine (does_enterScope hs).bind fun _ s₁ hs₁ _ hq₁ => ?_
  obtain ⟨hscopes₁, hstore₁⟩ := hq₁
  refine (does_forM_bind (f.params.zip sig.params) hs₁ fun p hp => ?_).bind
    fun _ s₂ hs₂ _ hq₂ => ?_
  · rw [hstore₁]
    exact hparams p.2 (List.of_mem_zip hp).2
  obtain ⟨hstore₂, hexit₂, henv₂⟩ := hq₂
  refine (body.walks W context s₂ hs₂).bind fun bodyTy s₃ hs₃ hadv₃ hq₃ => ?_
  obtain ⟨hexit₃, hbodyTy⟩ := hq₃
  have hret₃ : sig.ret < s₃.store.size := by
    refine lt_size_of_le hadv₃.le ?_
    rw [hstore₂, hstore₁]
    exact hret
  refine (does_equal body.span .body hs₃ hret₃ hbodyTy).bind fun _ s₄ hs₄ _ hq₄ => ?_
  have hexit : s₄.scopes.exit = {} := by
    rw [hq₄.1, hexit₃, hexit₂, hscopes₁, hscopes]
    rfl
  refine (does_exitScope hs₄ (by rw [hexit]; exact List.cons_ne_nil _ _)).mono ?_ ?_
  · rintro _ s₅ - - ⟨hscopes₅, -⟩
    rw [hscopes₅, hexit]
  · rintro T _ s₅ S₄ _ - - - - rfl - S₃ rfl - S₂ hfinds - S₁ rfl - S rfl
    refine ⟨T.tree bodyTy, S₃, s₃.scopes.env T, ?_, rfl⟩
    have henv : s₂.scopes.env T = Env.bindParams [] f.params (sig.params.map T.tree) := by
      rw [henv₂, hscopes₁, Scopes.env_enter, hscopes, Env.bindParams, List.zip_map]
      rfl
    rw [← henv]
    exact hfinds

/-- A member of a group has a body and a function type of the store. -/
def IsMember (st : Store) (m : FunctionDecl × TypeId) : Prop :=
  m.2 < st.size ∧ (∃ sig, st.signature? m.2 = some sig) ∧ ∃ body, m.1.body = some body

theorem signature?_of_le {st st' : Store} {ty : TypeId} (hle : st ≤ st') (hty : ty < st.size) :
    st'.signature? ty = st.signature? ty := by
  rw [Store.signature?, Store.signature?, shape_of_le hle hty]

theorem IsMember.of_le {st st' : Store} {m : FunctionDecl × TypeId} (h : IsMember st m)
    (hle : st ≤ st') : IsMember st' m := by
  obtain ⟨hty, ⟨sig, hsig⟩, hbody⟩ := h
  exact ⟨lt_size_of_le hle hty, ⟨sig, (signature?_of_le hle hty).trans hsig⟩, hbody⟩

/-- The bodies of a group are walked. -/
theorem does_findGroup (members : List (FunctionDecl × TypeId)) (hs : s.Ready W context)
    (hscopes : s.scopes = {}) (hmembers : ∀ m ∈ members, IsMember s.store m) :
    Does W context (FindM.findGroup members) s (fun _ s' => s'.scopes = {})
      fun T _ _ S S' => GroupFinds W T S members S' := by
  induction members generalizing s with
  | nil => exact does_pure hs hscopes fun _ _ _ => .nil
  | cons m rest ih =>
    obtain ⟨⟨hty, ⟨sig, hsig⟩, body, hbody⟩, hrest⟩ := List.forall_mem_cons.mp hmembers
    refine (does_functionRule hs hscopes hsig hty hbody).bind fun _ s₁ hs₁ hadv₁ hscopes₁ => ?_
    refine (ih hs₁ hscopes₁ fun m hm => (hrest m hm).of_le hadv₁.le).imp ?_
    rintro T _ s' S₁ S' - hadv hT - hgroup hle S hfinds
    refine .cons ?_ hbody hfinds hgroup
    rw [signature?_of_le (hadv₁.le.trans hle) hty]
    exact hsig

end FindM

end ConstraintTyping
