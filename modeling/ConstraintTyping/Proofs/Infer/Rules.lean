import ConstraintTyping.Proofs.Infer.Walk

/-!
# What each rule finds

One lemma for each rule of a construct: the rule gives a type of the store, leaves the scopes as they
are, and what it finds is what the rule of the construct on trees says.
-/

namespace ConstraintTyping

open Store StoreM TypeTree

namespace FindM

variable {W : Surroundings} {context : FindContext} {s : FindState}

/-- A rule gives a type of the store and leaves the scopes alone; `P` is what it finds. -/
def Infers (W : Surroundings) (context : FindContext) (act : FindM TypeId) (s : FindState)
    (P : Store → TypeId → Found → Found → Prop) : Prop :=
  Does W context act s (fun ty s' => s'.scopes = s.scopes ∧ ty < s'.store.size)
    fun T ty _ S S' => P T ty S S'

section Basic

variable {P P' : Store → TypeId → Found → Found → Prop} {act : FindM TypeId}

theorem infers_prim (p : Prim) (hs : s.Ready W context) (hP : ∀ T S, P T (TypeId.ofPrim p) S S) :
    Infers W context (pure (TypeId.ofPrim p)) s P :=
  does_pure hs ⟨rfl, lt_size_of_prim p⟩ fun T S _ => hP T S

theorem infers_fault (f : TypeFault) (hs : s.Ready W context) : Infers W context (fault f) s P :=
  does_fault f hs

theorem Infers.imp (h : Infers W context act s P)
    (hP : ∀ T ty S S', s.store ≤ T → P T ty S S' → P' T ty S S') : Infers W context act s P' :=
  Does.imp h fun T ty _ S S' _ hadv hT _ hp => hP T ty S S' (hadv.le.trans hT) hp

end Basic

/-! ## Literals and names -/

theorem infers_suffixRule (allowed : Prim → Bool) (suffix : Name) (span : Span)
    (hs : s.Ready W context) :
    Infers W context (suffixRule allowed suffix span) s fun T ty S S' =>
      S' = S ∧ ∃ p, Prim.ofName? suffix = some p ∧ allowed p = true ∧ T.tree ty = prim p := by
  unfold suffixRule
  cases h : (Prim.ofName? suffix).filter allowed with
  | none => exact infers_fault _ hs
  | some p =>
    obtain ⟨hp, hallowed⟩ := Option.filter_eq_some_iff.mp h
    exact infers_prim p hs fun T S => ⟨rfl, p, hp, hallowed, T.tree_prim p⟩

theorem infers_intRule (suffix : Option Name) (span : Span) (hs : s.Ready W context) :
    Infers W context (intRule suffix span) s fun T ty S S' =>
      S' = S ∧ ∀ value, LiteralHas (.int value suffix) (T.tree ty) := by
  cases suffix with
  | none =>
    refine infers_prim .i32 hs fun T S => ⟨rfl, fun value => ?_⟩
    rw [tree_prim]
    exact .int
  | some name =>
    refine (infers_suffixRule Prim.isNumeric name span hs).imp ?_
    rintro T ty S S' - ⟨rfl, p, hname, hp, htree⟩
    rw [htree]
    exact ⟨rfl, fun value => .intSuffix hname hp⟩

theorem infers_floatRule (suffix : Option Name) (span : Span) (hs : s.Ready W context) :
    Infers W context (floatRule suffix span) s fun T ty S S' =>
      S' = S ∧ ∀ bits, LiteralHas (.float bits suffix) (T.tree ty) := by
  cases suffix with
  | none =>
    refine infers_prim .f64 hs fun T S => ⟨rfl, fun bits => ?_⟩
    rw [tree_prim]
    exact .float
  | some name =>
    refine (infers_suffixRule Prim.isFloat name span hs).imp ?_
    rintro T ty S S' - ⟨rfl, p, hname, hp, htree⟩
    rw [htree]
    exact ⟨rfl, fun bits => .floatSuffix hname hp⟩

/-- A type is copied at fresh variables. -/
theorem infers_instantiateFresh {ty : TypeId} (hs : s.Ready W context) (hty : ty < s.store.size) :
    Infers W context (build (instantiateFresh ty)) s fun T r S S' =>
      S.Copies S' (s.store.tree ty) (T.tree r) := by
  obtain ⟨-, hlt, -⟩ := yields_instantiateFresh hty
  obtain ⟨ρ, hρ, hread⟩ := renames_instantiateFresh hty
  refine (does_builds (Q := fun r st => r < st.size ∧ Renames (s.store.tree ty) s.store.vars st.vars ρ ∧
    st.tree r = (s.store.tree ty).subst fun x => var (ρ x)) hs (builds_instantiateFresh ty)
    ⟨hlt, hρ, hread⟩).mono ?_ ?_
  · rintro r s' - - ⟨hscopes, hr, -⟩
    exact ⟨hscopes, hr⟩
  · rintro T r s' S _ - hadv hT ⟨-, hr, hρ, hread⟩ ⟨hS, rfl⟩
    refine ⟨⟨hS ▸ vars_subset_of_le hadv.le, rfl, rfl, rfl⟩, ρ, hS ▸ hρ, ?_⟩
    rw [tree_of_le hT hr, hread]

theorem infers_identRule (name : Name) (span : Span) (hs : s.Ready W context) :
    Infers W context (identRule name span) s fun T ty S S' =>
      ∀ id, FormFinds W id S (s.scopes.env T) (.ident name) (T.tree ty) S' (s.scopes.env T) := by
  unfold identRule
  refine does_read_bind (does_get_bind ?_)
  cases hlookup : s.scopes.lookup? name with
  | some ty =>
    refine does_pure hs ⟨rfl, ?_⟩ fun T S _ id =>
      .localName (by rw [Scopes.lookup_env, hlookup]; rfl)
    obtain ⟨frame, hframe, hty⟩ := List.exists_of_findSome?_eq_some hlookup
    obtain ⟨l₁, l₂, hl, -⟩ := List.lookup_eq_some_iff.mp hty
    exact hs.locals (name, ty) (List.mem_flatten.mpr ⟨frame, hframe, by rw [hl]; simp⟩)
  | none =>
    have hnone : ∀ T, (s.scopes.env T).lookup name = none := fun T => by
      rw [Scopes.lookup_env, hlookup]
      rfl
    cases hglobal : context.globals[name]? with
    | some g =>
      have hname : W.names name = some ⟨s.store.tree g.ty, g.finished⟩ := by
        rw [hs.names, FindContext.scheme?, hglobal]
      simp only []
      cases hfin : g.finished with
      | true =>
        rw [if_pos rfl]
        rw [hfin] at hname
        refine (infers_instantiateFresh hs (hs.context.globals hglobal)).imp ?_
        intro T ty S S' _ hcopies id
        exact .generalName (hnone T) hname hcopies
      | false =>
        rw [if_neg Bool.false_ne_true]
        rw [hfin] at hname
        refine does_pure hs ⟨rfl, hs.context.globals hglobal⟩ fun T S hT id => ?_
        rw [tree_of_le hT (hs.context.globals hglobal)]
        exact .fixedName (hnone T) hname
    | none =>
      cases hmethod : context.traits.method? name with
      | none => exact infers_fault _ hs
      | some ty =>
        have hname : W.names name = some ⟨s.store.tree ty, true⟩ := by
          rw [hs.names, FindContext.scheme?, hglobal, hmethod]
          rfl
        refine (infers_instantiateFresh hs (hs.context.methods hmethod)).imp ?_
        intro T r S S' _ hcopies id
        exact .generalName (hnone T) hname hcopies

/-! ## Calls and operators -/

/-- Pairs of types are asked to be equal, one after the other. -/
theorem does_forM_equal {reason : Nat → Reason} (L : List ((TypeId × TypeId × Span) × Nat))
    (hs : s.Ready W context)
    (hL : ∀ x ∈ L, x.1.1 < s.store.size ∧ x.1.2.1 < s.store.size) :
    Does W context (L.forM fun x => equal x.1.1 x.1.2.1 x.1.2.2 (reason x.2)) s
      (fun _ s' => s'.scopes = s.scopes ∧ s'.store = s.store)
      fun T _ _ S S' => S' = S.askAll (L.map fun x => (T.tree x.1.1, T.tree x.1.2.1)) := by
  induction L generalizing s with
  | nil =>
    refine does_pure hs ⟨rfl, rfl⟩ fun T S _ => ?_
    simp [Found.askAll]
  | cons x L ih =>
    obtain ⟨⟨hl, hr⟩, hL⟩ := List.forall_mem_cons.mp hL
    show Does W context (equal x.1.1 x.1.2.1 x.1.2.2 (reason x.2) >>= fun _ => L.forM _) s _ _
    refine (does_equal x.1.2.2 (reason x.2) hs hl hr).bind fun _ s₁ hs₁ _ hstays => ?_
    obtain ⟨hscopes, hstore⟩ := hstays
    refine (ih hs₁ (by rw [hstore]; exact hL)).mono ?_ ?_
    · rintro _ s₂ - - ⟨hscopes₂, hstore₂⟩
      exact ⟨hscopes₂.trans hscopes, hstore₂.trans hstore⟩
    · rintro T _ s₂ S₁ S' - - - - rfl - S rfl
      simp [Found.askAll, Found.ask]

theorem does_argumentsRule (reason : Nat → Reason) {params args : List TypeId} {spans : List Span}
    (hs : s.Ready W context) (hparams : ∀ p ∈ params, p < s.store.size)
    (hargs : ∀ a ∈ args, a < s.store.size) (hspans : args.length ≤ spans.length) :
    Does W context (argumentsRule reason params args spans) s
      (fun _ s' => s'.scopes = s.scopes ∧ s'.store = s.store)
      fun T _ _ S S' => S' = S.askAll ((params.map T.tree).zip (args.map T.tree)) := by
  have hmem : ∀ x ∈ (params.zip (args.zip spans)).zipIdx, x.1.1 ∈ params ∧ x.1.2.1 ∈ args := by
    intro x hx
    have hzip := List.of_mem_zip (List.fst_mem_of_mem_zipIdx hx)
    exact ⟨hzip.1, (List.of_mem_zip hzip.2).1⟩
  -- every pair has a span at its place
  have hpairs : ∀ T : Store, (params.zip (args.zip spans)).zipIdx.map
      (fun x => (T.tree x.1.1, T.tree x.1.2.1)) = (params.map T.tree).zip (args.map T.tree) := by
    intro T
    apply List.ext_getElem
    · simp only [List.length_map, List.length_zipIdx, List.length_zip]
      omega
    · intro i _ _
      simp
  refine (does_forM_equal _ hs fun x hx =>
    ⟨hparams _ (hmem x hx).1, hargs _ (hmem x hx).2⟩).imp ?_
  intro T _ _ S S' _ _ _ _ hS'
  rw [hS', hpairs T]

theorem signature?_tree {st T : Store} {ty : TypeId} (hle : st ≤ T) (hty : ty < st.size) :
    (T.tree ty).shape.signature? = (st.signature? (st.bare ty)).map (Signature.map T.tree) := by
  rw [shape_tree, bare_of_le hle hty, shape_of_le hle (bare_lt_size hty), Store.signature?]
  cases st.shape (st.bare ty) <;> rfl

theorem tree_of_bare_signature? {st T : Store} {ty : TypeId} {sig : Signature TypeId} (hle : st ≤ T)
    (hty : ty < st.size) (hsig : st.signature? (st.bare ty) = some sig) :
    T.tree ty = .mk (.function (sig.map T.tree)) := by
  have hfun := signature?_tree hle hty
  rw [hsig] at hfun
  rw [← mk_shape (T.tree ty)]
  cases hs : (T.tree ty).shape with
  | function f => rw [hs] at hfun; rw [Option.some.inj hfun]
  | _ => rw [hs] at hfun; cases hfun

/-- A callee of unknown type is asked to be a function of the arguments. -/
theorem infers_unknownCall (calleeSpan : Span) {callee : TypeId} {args : List TypeId}
    (hs : s.Ready W context) (hcallee : callee < s.store.size) (hargs : ∀ a ∈ args, a < s.store.size) :
    Infers W context (do
        let result ← freshVar
        let shape ← build (StoreM.function { ret := result, params := args })
        equal callee shape calleeSpan .general
        return result) s fun T ty S S' => ∃ x S₁, T.tree ty = var x ∧ S.Introduces S₁ [x] ∧
      S' = S₁.ask (T.tree callee) (.mk (.function { ret := var x, params := args.map T.tree })) := by
  refine (does_freshVar hs).bind fun v s₁ hs₁ hadv₁ hv => ?_
  obtain ⟨hscopes₁, hv⟩ := hv
  have hchildren := Signature.children_lt hv fun a ha => lt_size_of_le hadv₁.le (hargs a ha)
  obtain ⟨-, hlt, htree⟩ := yields_function hchildren
  refine (does_intern (t := fun T => .mk (.function (Signature.map T.tree _))) hs₁ rfl hlt
    htree ?_).bind fun shape s₂ hs₂ hadv₂ hshape => ?_
  · intro T hT
    exact congrArg TypeTree.mk (Shape.map_congr (s := .function _) fun c hc =>
      tree_of_le hT (hchildren c hc))
  obtain ⟨hscopes₂, hlt₂⟩ := hshape
  refine (does_equal calleeSpan .general hs₂ (lt_size_of_le (hadv₁.trans hadv₂).le hcallee)
    hlt₂).bind fun _ s₃ hs₃ hadv₃ hstays => ?_
  refine does_pure hs₃ ⟨?_, lt_size_of_le (hadv₂.trans hadv₃).le hv⟩ ?_
  · rw [hstays.1, hscopes₂, hscopes₁]
  · rintro T _ - - S₂ rfl - _ ⟨rfl, hread⟩ - S ⟨x, hx, hintro⟩
    refine ⟨x, _, hx, hintro, ?_⟩
    rw [hread]
    simp only [Signature.map, hx, List.map_nil]

/-- The result of a call is a variable that is asked to be the result of the function. -/
theorem infers_callResult (span : Span) {ret : TypeId} (hs : s.Ready W context)
    (hret : ret < s.store.size) :
    Infers W context (do
        let result ← freshVar
        equal result ret span .callResult
        return result) s fun T ty S S' => ∃ x S₁, T.tree ty = var x ∧ S.Introduces S₁ [x] ∧
      S' = S₁.ask (var x) (T.tree ret) := by
  refine (does_freshVar hs).bind fun v s₁ hs₁ hadv₁ hv => ?_
  refine (does_equal span .callResult hs₁ hv.2 (lt_size_of_le hadv₁.le hret)).bind
    fun _ s₂ hs₂ hadv₂ hstays => ?_
  refine does_pure hs₂ ⟨hstays.1.trans hv.1, lt_size_of_le hadv₂.le hv.2⟩ ?_
  rintro T _ - - S₁ rfl - S ⟨x, hx, hintro⟩
  exact ⟨x, S₁, hx, hintro, by rw [hx]⟩

/-- A call is noted if the function asks something of its callers, before it gets its result. -/
theorem infers_notedResult (id : ExprId) (span : Span) {callee : TypeId} {sig : Signature TypeId}
    (hs : s.Ready W context) (hcallee : callee < s.store.size)
    (hshape : s.store.shape callee = .function sig) (hret : sig.ret < s.store.size) :
    Infers W context (do
        if !sig.givens.isEmpty then
          modify fun s =>
            { s with finding.callSites := s.finding.callSites.push { expr := id, callee, span } }
        let result ← freshVar
        equal result sig.ret span .callResult
        return result) s fun T ty S S' => ∃ x S₁ S₂, T.tree ty = var x ∧
      S₁ = (if sig.givens.isEmpty then S else S.site id (T.tree callee)) ∧ S₁.Introduces S₂ [x] ∧
      S' = S₂.ask (var x) (T.tree sig.ret) := by
  dsimp only
  split
  · next hgivens =>
    refine (does_site id span hs hcallee hshape).bind fun _ s₁ hs₁ hadv₁ hstays => ?_
    refine ((infers_callResult span hs₁ (lt_size_of_le hadv₁.le hret)).mono ?_ ?_)
    · rintro ty s' - - ⟨hscopes, hlt⟩
      exact ⟨hscopes.trans hstays.1, hlt⟩
    · rintro T ty s' S₁ S' - - - - ⟨x, S₂, hx, hintro, rfl⟩ - S rfl
      refine ⟨x, _, S₂, hx, ?_, hintro, rfl⟩
      rw [if_neg (by simpa using hgivens)]
  · next hgivens =>
    refine (infers_callResult span hs hret).imp ?_
    rintro T ty S S' - ⟨x, S₂, hx, hintro, rfl⟩
    refine ⟨x, S, S₂, hx, ?_, hintro, rfl⟩
    rw [if_pos (by simpa using hgivens)]

/-- A call of a function, with the types of the call. -/
theorem infers_callRule (id : ExprId) (span calleeSpan : Span) {callee : TypeId}
    {args : List TypeId} {argSpans : List Span} (hs : s.Ready W context)
    (hcallee : callee < s.store.size) (hargs : ∀ a ∈ args, a < s.store.size)
    (hspans : args.length ≤ argSpans.length) :
    Infers W context (callRule id span calleeSpan callee args argSpans) s fun T ty S S' =>
      CallFinds id S (T.tree callee) (args.map T.tree) (T.tree ty) S' := by
  unfold callRule
  refine does_query_bind (does_query_bind ?_)
  have hbare := bare_lt_size hcallee
  have hbareTree : ∀ T, s.store ≤ T → T.tree (s.store.bare callee) = T.tree callee := by
    intro T hT
    rw [tree_of_le hT hbare, tree_bare, tree_of_le hT hcallee]
  cases hsig : s.store.signature? (s.store.bare callee) with
  | none =>
    refine (infers_unknownCall calleeSpan hs hbare hargs).imp ?_
    rintro T ty S _ hT ⟨x, S₁, hx, hintro, rfl⟩
    rw [hx, hbareTree T hT]
    refine .unknown ?_ hintro
    rw [signature?_tree hT hcallee, hsig]
    rfl
  | some sig =>
    have hshape := shape_of_signature? hsig
    have hchildren : ∀ c ∈ sig.children, c < s.store.size := by
      intro c hc
      refine lt_size_of_mem_children hbare ?_
      show c ∈ (s.store.shape (s.store.bare callee)).children
      rw [hshape]
      exact hc
    have hparams : ∀ p ∈ sig.params, p < s.store.size := fun p hp =>
      hchildren p (List.mem_append_left _ (List.mem_cons_of_mem _ hp))
    dsimp only
    refine does_check_bind _ hs fun s₁ hs₁ hscopes₁ hstore₁ => ?_
    refine (does_argumentsRule .argument hs₁ (by rw [hstore₁]; exact hparams)
      (by rw [hstore₁]; exact hargs) hspans).bind fun _ s₂ hs₂ _ hstays₂ => ?_
    have hstore₂ : s₂.store = s.store := hstays₂.2.trans hstore₁
    refine (infers_notedResult id span hs₂ (by rw [hstore₂]; exact hbare)
      (by rw [hstore₂]; exact hshape)
      (by rw [hstore₂]; exact hchildren _ List.mem_cons_self)).mono ?_ ?_
    · rintro ty s' - - ⟨hscopes, hlt⟩
      exact ⟨hscopes.trans (hstays₂.1.trans hscopes₁), hlt⟩
    · rintro T ty s' S₁ S' - hadv hT - ⟨x, S₂, S₃, hx, hsite, hintro, rfl⟩ - S rfl hfits
      have hT : s.store ≤ T := hstore₂ ▸ hadv.le.trans hT
      have hread := tree_of_bare_signature? hT hcallee hsig
      rw [hx, hread]
      refine @CallFinds.known _ _ _ _ (sig.map T.tree) _ _ ?_ ?_ hintro
      · rw [Bool.not_eq_true', decide_eq_false_iff_not, not_not] at hfits
        split at hfits
        · next hvariadic => exact .inr hvariadic
        · exact .inl (by simp only [List.length_map, Signature.map]; exact hfits)
      · rw [hsite, hbareTree T hT, hread]
        simp only [Signature.map, List.isEmpty_map]

/-- The variable of an operator is new. -/
theorem does_operatorVar (traitName : Name) (span : Span) (hs : s.Ready W context) :
    Does W context (operatorVar traitName span) s
      (fun shared s' => s'.scopes = s.scopes ∧ ∀ v, shared = some v → v < s'.store.size)
      fun T shared _ S S' => ∃ v x, shared = some v ∧ T.tree v = var x ∧ S.Introduces S' [x] := by
  unfold operatorVar
  refine does_read_bind ?_
  cases context.traits.trait? traitName with
  | none =>
    refine (does_fault _ hs (P := fun _ _ _ _ _ => False)).bind fun _ s₁ hs₁ _ h => ?_
    refine does_pure hs₁ ⟨h.1, fun v hv => by cases hv⟩ ?_
    intro T S _ _ _ hfalse
    exact hfalse.elim
  | some entry =>
    refine (does_freshVar hs).bind fun v s₁ hs₁ _ hv => ?_
    have hchildren : ∀ c ∈ (Shape.trait traitName v []).children, c < s₁.store.size := by
      simpa [Shape.children] using hv.2
    refine (does_intern (t := fun T => .mk ((Shape.trait traitName v []).map T.tree)) hs₁ rfl
      (intern_lt_size _ _) (yields_build rfl hchildren).2.2 ?_).bind
      fun obligation s₂ hs₂ hadv₂ hobl => ?_
    · intro T hT
      exact congrArg TypeTree.mk (Shape.map_congr fun c hc => tree_of_le hT (hchildren c hc))
    refine (does_oblige span hs₂ hobl.2).bind fun _ s₃ hs₃ hadv₃ hstays => ?_
    refine does_pure hs₃ ⟨by rw [hstays.1, hobl.1, hv.1], ?_⟩ ?_
    · rintro _ ⟨⟩
      exact lt_size_of_le (hadv₂.trans hadv₃).le hv.2
    · rintro T S _ _ _ rfl _ _ ⟨rfl, -⟩ _ S₀ ⟨x, hx, hintro⟩
      exact ⟨v, x, rfl, hx, hintro⟩

theorem infers_binaryRule (op : BinaryOp) (span : Span) {left right : TypeId}
    (leftSpan rightSpan : Span) (hs : s.Ready W context) (hleft : left < s.store.size)
    (hright : right < s.store.size) :
    Infers W context (binaryRule op span left right leftSpan rightSpan) s fun T ty S S' =>
      ∀ {id Γ Γ₁ Δ e₁ e₂ S₀ S₁}, Finds W S₀ Γ e₁ (T.tree left) S₁ Γ₁ →
        Finds W S₁ Γ₁ e₂ (T.tree right) S Δ →
        FormFinds W id S₀ Γ (.binary op e₁ e₂) (T.tree ty) S' Δ := by
  unfold binaryRule
  cases hop : op.traitName? with
  | none =>
    refine (does_equal leftSpan .condition hs (lt_size_of_prim .bool) hleft).bind
      fun _ s₁ hs₁ _ hstays₁ => ?_
    refine (does_equal rightSpan .condition hs₁ (lt_size_of_prim .bool)
      (by rw [hstays₁.2]; exact hright)).bind fun _ s₂ hs₂ _ hstays₂ => ?_
    refine does_pure hs₂ ⟨hstays₂.1.trans hstays₁.1, lt_size_of_prim .bool⟩ ?_
    rintro T _ - - S₁ rfl - S rfl id Γ Γ₁ Δ e₁ e₂ S₀ S₁ h₁ h₂
    rw [show T.tree TypeId.bool = prim .bool from T.tree_prim .bool]
    exact .logical hop h₁ h₂
  | some traitName =>
    refine (does_operatorVar traitName span hs).bind fun shared s₁ hs₁ hadv₁ hshared => ?_
    obtain ⟨hscopes₁, hshared⟩ := hshared
    cases shared with
    | none =>
      refine does_pure hs₁ ⟨hscopes₁, lt_size_of_prim .error⟩ ?_
      rintro T _ - - S ⟨_, _, ⟨⟩, -⟩
    | some v =>
      have hv := hshared v rfl
      refine (does_equal leftSpan .operand hs₁ hv (lt_size_of_le hadv₁.le hleft)).bind
        fun _ s₂ hs₂ _ hstays₂ => ?_
      refine (does_equal rightSpan .operand hs₂ (by rw [hstays₂.2]; exact hv)
        (by rw [hstays₂.2]; exact lt_size_of_le hadv₁.le hright)).bind
        fun _ s₃ hs₃ _ hstays₃ => ?_
      refine does_pure hs₃ ⟨by rw [hstays₃.1, hstays₂.1, hscopes₁], ?_⟩ ?_
      · rw [hstays₃.2, hstays₂.2]
        split
        · exact lt_size_of_prim .bool
        · exact hv
      · rintro T _ - - _ rfl - _ rfl - S ⟨_, x, ⟨⟩, hx, hintro⟩ id Γ Γ₁ Δ e₁ e₂ S₀ S₁ h₁ h₂
        have hresult : T.tree (if op.isComparison then TypeId.bool else v) =
            if op.isComparison then prim .bool else var x := by
          split
          · exact T.tree_prim .bool
          · exact hx
        rw [hresult, hx]
        exact .overloaded (by rw [hop]; rfl) h₁ h₂ hintro

theorem infers_unaryRule (op : UnaryOp) (span : Span) {operand : TypeId} (operandSpan : Span)
    (hs : s.Ready W context) (hoperand : operand < s.store.size) :
    Infers W context (unaryRule op span operand operandSpan) s fun T ty S S' =>
      ∀ {id Γ Δ e S₀}, Finds W S₀ Γ e (T.tree operand) S Δ →
        FormFinds W id S₀ Γ (.unary op e) (T.tree ty) S' Δ := by
  unfold unaryRule
  cases op with
  | neg =>
    refine (does_operatorVar "Neg" span hs).bind fun shared s₁ hs₁ hadv₁ hshared => ?_
    obtain ⟨hscopes₁, hshared⟩ := hshared
    cases shared with
    | none =>
      refine does_pure hs₁ ⟨hscopes₁, lt_size_of_prim .error⟩ ?_
      rintro T _ - - S ⟨_, _, ⟨⟩, -⟩
    | some v =>
      have hv := hshared v rfl
      refine (does_equal operandSpan .operand hs₁ hv (lt_size_of_le hadv₁.le hoperand)).bind
        fun _ s₂ hs₂ hadv₂ hstays => ?_
      refine does_pure hs₂ ⟨hstays.1.trans hscopes₁, lt_size_of_le hadv₂.le hv⟩ ?_
      rintro T _ - - _ rfl - S ⟨_, x, ⟨⟩, hx, hintro⟩ id Γ Δ e S₀ he
      rw [hx]
      exact .neg he hintro
  | not =>
    refine (does_equal operandSpan .condition hs (lt_size_of_prim .bool) hoperand).bind
      fun _ s₁ hs₁ _ hstays => ?_
    refine does_pure hs₁ ⟨hstays.1, lt_size_of_prim .bool⟩ ?_
    rintro T _ - - S rfl id Γ Δ e S₀ he
    rw [show T.tree TypeId.bool = prim .bool from T.tree_prim .bool]
    exact .not he
  | addressOf =>
    obtain ⟨-, hlt, htree⟩ := yields_pointer hoperand
    refine Does.imp (does_intern (t := fun T => .mk (.pointer (T.tree operand))) hs rfl hlt htree
      fun T hT => by rw [tree_of_le hT hoperand]) ?_
    rintro T ty s' S _ - - - - ⟨rfl, hread⟩ id Γ Δ e S₀ he
    rw [hread]
    exact .addressOf he
  | deref =>
    refine (does_freshVar hs).bind fun v s₁ hs₁ hadv₁ hv => ?_
    obtain ⟨-, hlt, htree⟩ := yields_pointer hv.2
    refine (does_intern (t := fun T => .mk (.pointer (T.tree v))) hs₁ rfl hlt htree
      fun T hT => by rw [tree_of_le hT hv.2]).bind fun pointer s₂ hs₂ hadv₂ hpointer => ?_
    refine (does_equal operandSpan .operand hs₂ hpointer.2
      (lt_size_of_le (hadv₁.trans hadv₂).le hoperand)).bind fun _ s₃ hs₃ hadv₃ hstays => ?_
    refine does_pure hs₃ ⟨?_, lt_size_of_le (hadv₂.trans hadv₃).le hv.2⟩ ?_
    · rw [hstays.1, hpointer.1, hv.1]
    · rintro T _ - - _ rfl - _ ⟨rfl, hread⟩ - S ⟨x, hx, hintro⟩ id Γ Δ e S₀ he
      rw [hread, hx]
      exact .deref he hintro

/-! ## Products -/

/-- An instance of a product with its body is the declared product, opened at new variables. -/
def OpensAs (W : Surroundings) (T : Store) (name : Name) (inst : TypeId) (body : ProductBody)
    (S S' : Found) : Prop :=
  ∃ p xs, S.Opens S' W.declarations name p xs ∧ body.fieldNames = p.fieldNames ∧
    body.fields.map T.tree = p.openFields xs ∧
    T.tree (body.parent.getD inst) = p.result name (xs.map var) ∧
    T.tree inst = .mk (.product name (xs.map var))

/-- A declared product is opened at new variables, and nothing else changes. -/
theorem exists_freshProduct {name : Name} {st : FindState} {d : TypeId} {params : List TypeId}
    (hco : st.store.Coherent) (hcomp : st.store.Complete)
    (hd : st.store.Declares name d .product params) (context : FindContext) :
    ∃ args decl v body store', NewVars st.store store' args ∧ st.store.Advances store' ∧
      store'.Coherent ∧ DeclM.IsProductAt store' name d params args decl v body ∧
      freshProduct d context st = (some (v, body), { st with store := store' }) := by
  rcases DeclM.gives_instantiateAtFresh hco hcomp hd with
    ⟨v, store', hrun, hfresh⟩ | ⟨_, _, _, hfalse⟩
  · obtain ⟨args, decl, body, hnew, hproduct⟩ := hfresh.product
    have hmade : build (DeclM.instantiateAtFresh d).run context st =
        (.ok v, { st with store := store' }) := by
      rw [build, hrun]
    refine ⟨args, decl, v, body, store', hnew, hfresh.advances, hfresh.coherent,
      hproduct, ?_⟩
    rw [freshProduct, bind_apply, hmade]
    show (((store'.productBody? v).map fun body => (v, body)), _) = _
    rw [hproduct.productBody]
    rfl
  · exact hfalse.elim

/-- A product at new variables is the declared one, opened at them. -/
theorem opensAs_of_newVars {st st' T : Store} {name : Name} {d inst : TypeId}
    {params args : List TypeId} {decl body : ProductBody} {S : Found} (hnew : NewVars st st' args)
    (hat : DeclM.IsProductAt st' name d params args decl inst body) (hle : st ≤ st')
    (hT : st' ≤ T) (hco : st'.Coherent) (hd : st'.Declares name d .product params)
    (hW : st'.declarations = W.declarations) (hS : S.vars = st.vars) :
    OpensAs W T name inst body S { S with vars := st'.vars } := by
  obtain ⟨hfields, hparent⟩ := hat.body_lt hco
  obtain ⟨hlen, hnames, hread, hresult⟩ := hat.read hco hd
  obtain ⟨xs, hxs, hintro⟩ := introduces_of_newVars hle hT hnew hS
  have hargs : args.map st'.tree = xs.map var := by
    rw [← hxs]
    exact (map_tree_of_le hT fun a ha => hnew.lt_size ha).symm
  rw [hargs] at hread hresult
  have hlenxs : xs.length = args.length := by
    simpa using (congrArg List.length hxs).symm
  refine ⟨st'.readProduct params decl, xs, ⟨hintro, ?_, ?_, ?_, ?_⟩, hnames, ?_, ?_, ?_⟩
  · rw [← hW]
    exact hd.product? hat.declBody
  · rw [hlen, hlenxs]
  · rw [← hread]
    rintro _ ht
    obtain ⟨f, -, rfl⟩ := List.mem_map.mp ht
    exact fun _ hx => mem_vars_of_occurs hx
  · rw [← hresult]
    exact fun _ hx => mem_vars_of_occurs hx
  · rw [map_tree_of_le hT hfields, hread]
  · rw [tree_of_le hT hparent, hresult]
  · rw [tree_of_le hT hat.isInstance.lt_size, hat.isInstance.tree_eq, hargs]
    rfl

theorem does_freshProduct {name : Name} {decl : TypeId} {params : List TypeId}
    (hs : s.Ready W context) (hd : s.store.Declares name decl .product params) :
    Does W context (freshProduct decl) s
      (fun made s' => s'.scopes = s.scopes ∧ ∃ inst body, made = some (inst, body) ∧
        inst < s'.store.size ∧ (∀ f ∈ body.fields, f < s'.store.size) ∧
        body.parent.getD inst < s'.store.size ∧
        ∃ declBody, s.store.productBody? decl = some declBody ∧
          body.fieldNames = declBody.fieldNames ∧
          body.fields.length = declBody.fields.length)
      fun T made _ S S' => ∀ inst body, made = some (inst, body) →
        OpensAs W T name inst body S S' := by
  obtain ⟨args, declBody, inst, body, store', hnew, hadv, hco, hat, hrun⟩ :=
    exists_freshProduct hs.implements.coherent hs.implements.complete hd context
  refine (does_of_run hs hrun ⟨hadv, hco⟩).mono ?_ ?_
  · rintro _ _ - - ⟨rfl, rfl⟩
    obtain ⟨hfields, hparent⟩ := hat.body_lt hco
    obtain ⟨declBody₀, hdecl⟩ := hs.implements.complete.product hd
    obtain rfl := Option.some.inj (hat.declBody.symm.trans (hadv.productBody? hd.declared hdecl))
    refine ⟨rfl, inst, body, rfl, hat.isInstance.lt_size, hfields, hparent, declBody, hdecl,
      hat.isBodyAt.fieldNames, ?_⟩
    simpa using congrArg List.length hat.isBodyAt.fields
  · rintro T _ _ S _ hs₁ - hT ⟨rfl, rfl⟩ ⟨hS, rfl⟩ _ _ ⟨⟩
    exact opensAs_of_newVars hnew hat hadv.le hT hco (hadv.declares hd)
      hs₁.implements.declarations hS

/-- A product that has a field is declared. -/
theorem declares_of_mem_productsWithField {st : Store} {field : Name} {owner : TypeId}
    (hco : st.Coherent) (hcomp : st.Complete) (h : owner ∈ st.productsWithField field) :
    ∃ name params body, st.Declares name owner .product params ∧
      st.productBody? owner = some body ∧ (body.fieldIndex? field).isSome = true := by
  unfold productsWithField at h
  rw [List.mem_mergeSort, List.mem_filter, List.mem_map] at h
  obtain ⟨⟨⟨name, d⟩, hmem, rfl⟩, howns⟩ := h
  have hdecl : st.declared? name = some d := Std.HashMap.mem_toList_iff_getElem?_eq_some.mp hmem
  obtain ⟨-, k, params, hd, -⟩ := hco.declares hdecl
  obtain ⟨body, hbody, hindex⟩ : ∃ body, st.productBody? d = some body ∧
      (body.fieldIndex? field).isSome = true := by
    cases hbody : st.productBody? d with
    | none => simp [hbody] at howns
    | some body => exact ⟨body, rfl, by simpa [hbody] using howns⟩
  refine ⟨name, params, body, ?_, hbody, hindex⟩
  cases k with
  | product => exact hd
  | sum =>
    -- a declared sum has tags for a body
    obtain ⟨tags, htags⟩ := hcomp.sum hd
    rw [productBody?_eq_some, sumTags?_eq_some.mp htags] at hbody
    cases hbody

/-- Every declared product with a field of a name is found by that name. -/
theorem mem_productsWithField {st : Store} {field name : Name} {d : TypeId} {params : List TypeId}
    {body : ProductBody} (hd : st.Declares name d .product params)
    (hbody : st.productBody? d = some body) (hfield : some field ∈ body.fieldNames) :
    d ∈ st.productsWithField field := by
  unfold productsWithField
  rw [List.mem_mergeSort, List.mem_filter]
  refine ⟨List.mem_map.mpr ⟨(name, d), ?_, rfl⟩, ?_⟩
  · exact Std.HashMap.mem_toList_iff_getElem?_eq_some.mpr hd.declared
  · rw [hbody, Option.any_some, ProductBody.fieldIndex?, List.isSome_idxOf?]
    exact hfield

theorem infers_fieldRule (field : Name) (span : Span) {receiver : TypeId} (receiverSpan : Span)
    (hs : s.Ready W context) (hreceiver : receiver < s.store.size) :
    Infers W context (fieldRule field span receiver receiverSpan) s fun T ty S S' =>
      ∀ {id Γ Δ e S₀}, Finds W S₀ Γ e (T.tree receiver) S Δ →
        FormFinds W id S₀ Γ (.field e field) (T.tree ty) S' Δ := by
  unfold fieldRule
  refine does_query_bind ?_
  cases howners : s.store.productsWithField field with
  | nil => exact infers_fault _ hs
  | cons owner rest =>
    cases rest with
    | cons other rest => exact does_query_bind (infers_fault _ hs)
    | nil =>
      have hco := hs.implements.coherent
      obtain ⟨name, params, decl, hd, hdecl, hindex⟩ := declares_of_mem_productsWithField
        hco hs.implements.complete
        (show owner ∈ s.store.productsWithField field by rw [howners]; exact List.mem_cons_self)
      refine (does_freshProduct hs hd).bind fun made s₁ hs₁ hadv₁ hmade => ?_
      obtain ⟨hscopes₁, inst, body, rfl, hinst, hfields, -, declBody, hdeclBody, hnames, hlen⟩ :=
        hmade
      obtain rfl := Option.some.inj (hdecl.symm.trans hdeclBody)
      obtain ⟨index, hindex⟩ : ∃ index, body.fieldIndex? field = some index := by
        rw [ProductBody.fieldIndex?, hnames]
        exact Option.isSome_iff_exists.mp hindex
      dsimp only
      rw [hindex, Option.bind_some]
      cases hfield : body.fields[index]? with
      | none =>
        -- there are as many fields as places for their names
        have hlt : index < body.fieldNames.length := (List.idxOf?_eq_some_iff.mp hindex).1
        rw [List.getElem?_eq_none_iff, hlen, ← hs.implements.complete.names hd hdecl,
          ← hnames] at hfield
        omega
      | some ty =>
        have hty := hfields ty (List.mem_of_getElem? hfield)
        refine (does_equal receiverSpan .field hs₁ hinst (lt_size_of_le hadv₁.le hreceiver)).bind
          fun _ s₂ hs₂ hadv₂ hstays => ?_
        refine does_pure hs₂ ⟨hstays.1.trans hscopes₁, lt_size_of_le hadv₂.le hty⟩ ?_
        rintro T _ - - _ rfl - S hopens id Γ Δ e S₀ he
        obtain ⟨p, xs, hopens, hpnames, hpfields, -, hpinst⟩ := hopens inst body rfl
        rw [hpinst]
        refine .field he ?_ hopens (by rw [← hpnames]; exact hindex) ?_
        · intro name' q hq hmem
          rw [← hs.implements.declarations] at hq
          obtain ⟨d', params', body', hd', hbody', rfl⟩ := exists_of_product? hco hq
          have howner := mem_productsWithField hd' hbody' hmem
          rw [howners, List.mem_singleton] at howner
          obtain ⟨rfl, -, -⟩ := (howner ▸ hd').unique_of_id hd
          rfl
        · rw [← hpfields, List.getElem?_map, hfield]
          rfl

theorem infers_constructRule (name : Name) (span : Span) {args : List TypeId}
    {argSpans : List Span} (hs : s.Ready W context) (hargs : ∀ a ∈ args, a < s.store.size)
    (hspans : args.length ≤ argSpans.length) :
    Infers W context (constructRule name span args argSpans) s fun T ty S S' =>
      ∀ {id Γ Δ items S₀}, AllFind W S₀ Γ items (args.map T.tree) S Δ →
        FormFinds W id S₀ Γ (.construct name items) (T.tree ty) S' Δ := by
  unfold constructRule
  refine does_query_bind ?_
  cases hdecl : s.store.declaredProduct? name with
  | none => exact infers_fault _ hs
  | some decl =>
    obtain ⟨params, hd⟩ := declares_of_declaredProduct? hs.implements.coherent hdecl
    refine (does_freshProduct hs hd).bind fun made s₁ hs₁ hadv₁ hmade => ?_
    obtain ⟨hscopes₁, inst, body, rfl, -, hfields, hparent, -⟩ := hmade
    dsimp only
    refine does_check_bind _ hs₁ fun s₂ hs₂ hscopes₂ hstore₂ => ?_
    refine (does_argumentsRule (fun _ => .field) hs₂ (by rw [hstore₂]; exact hfields)
      (by rw [hstore₂]; exact fun a ha => lt_size_of_le hadv₁.le (hargs a ha)) hspans).bind
      fun _ s₃ hs₃ _ hstays₃ => ?_
    refine does_pure hs₃ ⟨?_, ?_⟩ ?_
    · rw [hstays₃.1, hscopes₂, hscopes₁]
    · rw [hstays₃.2, hstore₂]
      exact hparent
    · rintro T _ - - S₁ rfl hlen - S hopens id Γ Δ items S₀ hitems
      obtain ⟨p, xs, hopens, -, hpfields, hresult, -⟩ := hopens inst body rfl
      rw [hresult, hpfields]
      refine .construct hitems hopens ?_
      rw [← hpfields, List.length_map, List.length_map]
      exact not_not.mp hlen

/-! ## Written types and parameters -/

theorem infers_writtenRule (written : TypeExpr) (span : Span) (hs : s.Ready W context) :
    Infers W context (writtenRule written span) s fun T ty S S' =>
      S.Writes S' W.declarations written (T.tree ty) := by
  unfold writtenRule
  have hco := hs.implements.coherent
  have hgives := resolvesWell W.declarations span written s.store hco
    (by rw [hs.implements.declarations])
  rcases hgives with ⟨ty, st, hrun, hends, hres⟩ | ⟨f, st, hrun, hends⟩
  · refine (does_build (Q := fun r st => r = .ok ty ∧ Resolves W.declarations st written ty) hs
      (by rw [hrun]; exact hends) (by rw [hrun]; exact ⟨rfl, hres⟩)).bind
      fun r s₁ hs₁ hadv₁ hr => ?_
    obtain ⟨hscopes, rfl, hlt, hdenotes⟩ := hr
    refine does_pure hs₁ ⟨hscopes, hlt⟩ ?_
    rintro T _ hT - S ⟨hS, rfl⟩
    refine ⟨⟨hS ▸ vars_subset_of_le hadv₁.le, rfl, rfl, rfl⟩, ?_, FindState.over_tree hT hlt⟩
    rw [tree_of_le hT hlt]
    exact hdenotes
  · refine (does_build (Q := fun r _ => r = .error f) hs (by rw [hrun]; exact hends)
      (by rw [hrun])).bind fun r s₁ hs₁ hadv₁ hr => ?_
    obtain ⟨hscopes, rfl⟩ := hr
    refine (does_fault f hs₁).mono ?_ fun _ _ _ _ _ _ _ _ _ h => h
    rintro ty s₂ - - ⟨hscopes₂, hty⟩
    exact ⟨hscopes₂.trans hscopes, hty⟩

/-- Parameters are bound one after the other, so the last of a name is the innermost. -/
theorem does_paramsRule (params : List Param) (hs : s.Ready W context) :
    Does W context (paramsRule params) s
      (fun tys s' => s'.scopes.exit = s.scopes.exit ∧ (∀ ty ∈ tys, ty < s'.store.size))
      fun T tys s' S S' => ParamsFind W.declarations S params (tys.map T.tree) S' ∧
        s'.scopes.env T = (s.scopes.env T).bindParams params (tys.map T.tree) := by
  induction params generalizing s with
  | nil =>
    refine does_pure hs ⟨rfl, by simp⟩ fun T S _ => ⟨.nil, rfl⟩
  | cons p rest ih =>
    unfold paramsRule
    -- the type of the parameter is written or a variable, and then it is bound
    have hstep : ∀ act : FindM TypeId, (Infers W context act s fun T ty S S' =>
          (∀ w, p.written = some w → S.Writes S' W.declarations w (T.tree ty)) ∧
          (p.written = none → ∃ x, T.tree ty = var x ∧ S.Introduces S' [x])) →
        Does W context (act >>= fun ty => do
            FindM.bind p.name ty
            let tys ← paramsRule rest
            pure (ty :: tys)) s
          (fun tys s' => s'.scopes.exit = s.scopes.exit ∧ (∀ ty ∈ tys, ty < s'.store.size))
          fun T tys s' S S' => ParamsFind W.declarations S (p :: rest) (tys.map T.tree) S' ∧
            s'.scopes.env T = (s.scopes.env T).bindParams (p :: rest) (tys.map T.tree) := by
      intro act hact
      refine Does.bind hact fun ty s₁ hs₁ _ hq => ?_
      refine (does_bindName p.name hs₁ hq.2).bind fun _ s₂ hs₂ hadv₂ hbind => ?_
      refine (ih hs₂).bind fun tys s₃ hs₃ hadv₃ htys => ?_
      refine does_pure hs₃ ⟨?_, ?_⟩ ?_
      · rw [htys.1, hbind.1, (Scopes.bind_spec hs₁.frames p.name ty).2.2, hq.1]
      · exact List.forall_mem_cons.mpr ⟨lt_size_of_le (hadv₂.trans hadv₃).le hq.2, htys.2⟩
      · rintro T S' - - S₂ ⟨hfind, henv⟩ - S₁ rfl - S ⟨hwritten, hplain⟩
        constructor
        · cases hp : p.written with
          | some w => exact .written hp (hwritten w hp) hfind
          | none =>
            obtain ⟨x, hx, hintro⟩ := hplain hp
            rw [List.map_cons, hx]
            exact .plain hp hintro hfind
        · rw [henv, hbind.1, Scopes.env_bind T hs₁.frames, hq.1]
          simp [Env.bindParams]
    cases hp : p.written with
    | some w =>
      refine hstep _ ((infers_writtenRule w p.span hs).imp fun T ty S S' _ h => ⟨?_, ?_⟩)
      · intro w' hw'
        rwa [Option.some.inj (hw'.symm.trans hp)]
      · intro hnone
        rw [hp] at hnone
        cases hnone
    | none =>
      refine hstep _ (Does.imp (does_freshVar hs) fun T ty _ S S' _ _ _ _ h => ⟨?_, fun _ => h⟩)
      intro w hw
      rw [hp] at hw
      cases hw

theorem does_coverageRule (patterns : List Pattern) (span : Span) (hs : s.Ready W context) :
    Does W context (coverageRule patterns span) s
      (fun _ s' => s'.scopes = s.scopes ∧ s'.store = s.store) fun _ _ _ S S' => S' = S := by
  unfold coverageRule
  refine does_query_bind ?_
  split
  · refine ⟨[], ⟨⟨hs.implements, hs.names, hs.context, hs.constraints, hs.obligations, hs.sites, hs.frames,
      hs.locals⟩, .refl _, List.prefix_rfl, List.prefix_rfl, rfl, by simp, Nat.le_succ _, Or.inl⟩,
      ⟨rfl, rfl⟩, fun herr => absurd herr (Nat.succ_ne_self _)⟩
  · exact does_pure hs ⟨rfl, rfl⟩ fun _ _ _ => rfl

end FindM

end ConstraintTyping
