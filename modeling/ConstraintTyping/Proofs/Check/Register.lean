import ConstraintTyping.Check.Signatures
import ConstraintTyping.Proofs.Infer.Written
import ConstraintTyping.Proofs.Traits.Table

/-!
# Registration

Whatever is refused while types, traits and implementations are registered, the store is coherent in
the end, every declared type has a body, and the methods of traits have types of the store.  Types
are declared first, and then they get their bodies one after the other.  When nothing is refused, the
error type is in none of this.
-/

namespace ConstraintTyping

open Store StoreM

/-! ## Steps of a check -/

namespace CheckState

variable {s s' s'' : CheckState}

/-- No error has been reported. -/
def Clean (s : CheckState) : Prop := s.log.errorCount = 0

/-- What is known about functions and bodies stays, and errors are only counted up. -/
structure SameFunctions (s s' : CheckState) : Prop where
  globals : s'.globals = s.globals
  exprTypes : s'.exprTypes = s.exprTypes
  functions : s'.functions = s.functions
  errors : s.log.errorCount ≤ s'.log.errorCount

theorem SameFunctions.refl (s : CheckState) : s.SameFunctions s := ⟨rfl, rfl, rfl, le_rfl⟩

theorem SameFunctions.trans (h : s.SameFunctions s') (h' : s'.SameFunctions s'') :
    s.SameFunctions s'' where
  globals := h'.globals.trans h.globals
  exprTypes := h'.exprTypes.trans h.exprTypes
  functions := h'.functions.trans h.functions
  errors := h.errors.trans h'.errors

/-- An error is not taken back. -/
theorem SameFunctions.clean (h : s.SameFunctions s') (hclean : s'.Clean) : s.Clean :=
  Nat.le_zero.mp (h.errors.trans_eq hclean)

/-- Only types and errors are added. -/
structure OnlyTypes (s s' : CheckState) : Prop extends SameFunctions s s' where
  traits : s'.traits = s.traits

theorem OnlyTypes.refl (s : CheckState) : s.OnlyTypes s := ⟨.refl s, rfl⟩

theorem OnlyTypes.trans (h : s.OnlyTypes s') (h' : s'.OnlyTypes s'') : s.OnlyTypes s'' :=
  ⟨h.toSameFunctions.trans h'.toSameFunctions, h'.traits.trans h.traits⟩

theorem onlyTypes_store (s : CheckState) (st : Store) : s.OnlyTypes { s with store := st } :=
  ⟨⟨rfl, rfl, rfl, le_rfl⟩, rfl⟩

/-- A step that builds types, makes instances and reports errors. -/
structure Advances (s s' : CheckState) : Prop extends OnlyTypes s s' where
  store : s.store.Advances s'.store
  coherent : s'.store.Coherent

theorem Advances.refl (hco : s.store.Coherent) : s.Advances s := ⟨.refl s, .refl _, hco⟩

theorem Advances.trans (h : s.Advances s') (h' : s'.Advances s'') : s.Advances s'' :=
  ⟨h.toOnlyTypes.trans h'.toOnlyTypes, h.store.trans h'.store, h'.coherent⟩

theorem Advances.endsWell (h : s.Advances s') : DeclM.EndsWell s.store s'.store :=
  ⟨h.store, h.coherent⟩

theorem Advances.type? (h : s.Advances s') (hco : s.store.Coherent) :
    s'.store.declarations.type? = s.store.declarations.type? :=
  type?_of_advances hco h.store

/-- Types are built. -/
theorem Advances.of_builds {α : Type} {act : StoreM α} (hco : s.store.Coherent)
    (h : act.Builds) : s.Advances { s with store := (act s.store).2 } :=
  ⟨s.onlyTypes_store _, .of_nominals (h s.store).1 (h s.store).2,
    hco.of_nominals (h s.store).1 (h s.store).2⟩

/-- A type of the store, without the error type if nothing was reported. -/
def Sound (s : CheckState) (ty : TypeId) : Prop := ty < s.store.size ∧ (s.Clean → s.store.Whole ty)

theorem Sound.of_le {ty : TypeId} (h : s.Sound ty) (hle : s.store ≤ s'.store)
    (herrors : s.log.errorCount ≤ s'.log.errorCount) : s'.Sound ty :=
  ⟨lt_size_of_le hle h.1,
    fun hclean => (h.2 (Nat.le_zero.mp (herrors.trans_eq hclean))).of_le hle⟩

theorem Sound.of_advances {ty : TypeId} (h : s.Sound ty) (hadv : s.Advances s') : s'.Sound ty :=
  h.of_le hadv.store.le hadv.errors

/-- A function type of the store, without the error type if nothing was reported. -/
def Callable (s : CheckState) (ty : TypeId) : Prop := s.Sound ty ∧ (s.store.tree ty).IsFunction

theorem Callable.of_le {ty : TypeId} (h : s.Callable ty) (hle : s.store ≤ s'.store)
    (herrors : s.log.errorCount ≤ s'.log.errorCount) : s'.Callable ty :=
  ⟨h.1.of_le hle herrors, by rw [tree_of_le hle h.1.1]; exact h.2⟩

end CheckState

namespace CheckM

variable {α β : Type} {s : CheckState}

/-- What holds of the result of a step and of the state it ends in. -/
def Ends (act : CheckM α) (s : CheckState) (Q : α → CheckState → Prop) : Prop :=
  Q (act s).1 (act s).2

theorem ends_pure {a : α} {Q : α → CheckState → Prop} (h : Q a s) : Ends (pure a) s Q := h

theorem Ends.bind {act : CheckM α} {f : α → CheckM β} {Q : α → CheckState → Prop}
    {R : β → CheckState → Prop} (h : Ends act s Q) (hf : ∀ a s', Q a s' → Ends (f a) s' R) :
    Ends (act >>= f) s R :=
  hf _ _ h

theorem Ends.mono {act : CheckM α} {Q R : α → CheckState → Prop} (h : Ends act s Q)
    (hQR : ∀ a s', Q a s' → R a s') : Ends act s R :=
  hQR _ _ h

theorem ends_get_bind {f : CheckState → CheckM β} {R : β → CheckState → Prop}
    (h : Ends (f s) s R) : Ends (get >>= f) s R := h

theorem ends_modify {f : CheckState → CheckState} {Q : Unit → CheckState → Prop}
    (h : Q () (f s)) : Ends (modify f) s Q := h

theorem ends_build {act : StoreM α} {Q : α → CheckState → Prop}
    (h : Q (act s.store).1 { s with store := (act s.store).2 }) : Ends (build act) s Q := h

/-- A reported fault is the only change, and no state after it is clean. -/
theorem ends_report (f : TypeFault) (s : CheckState) :
    Ends (report f) s fun _ s' => s.OnlyTypes s' ∧ s'.store = s.store ∧ ¬ s'.Clean :=
  ⟨⟨⟨rfl, rfl, rfl, Nat.le_succ _⟩, rfl⟩, rfl, Nat.succ_ne_zero _⟩

/-- A loop whose rounds build types and make instances, and whose results stay good. -/
theorem ends_mapM {f : α → CheckM β} {P : α → β → CheckState → Prop} (xs : List α)
    (hco : s.store.Coherent) (stable : ∀ x y s₁ s₂, s₁.Advances s₂ → P x y s₁ → P x y s₂)
    (hf : ∀ x ∈ xs, ∀ s', s.Advances s' → Ends (f x) s' fun y s'' => s'.Advances s'' ∧ P x y s'') :
    Ends (xs.mapM f) s fun ys s' =>
      s.Advances s' ∧ List.Forall₂ (fun x y => P x y s') xs ys := by
  induction xs generalizing s with
  | nil => exact ends_pure ⟨.refl hco, .nil⟩
  | cons x xs ih =>
    rw [List.mapM_cons]
    refine (hf x List.mem_cons_self s (.refl hco)).bind ?_
    rintro y s₁ ⟨hadv, hy⟩
    refine (ih hadv.coherent fun x' hx' s' hs' =>
      hf x' (List.mem_cons_of_mem x hx') s' (hadv.trans hs')).bind ?_
    rintro ys s₂ ⟨hadv₂, hys⟩
    exact ends_pure ⟨hadv.trans hadv₂, .cons (stable x y _ _ hadv₂ hy) hys⟩

/-- A loop that keeps an invariant. -/
theorem ends_forM {f : α → CheckM Unit} {I : CheckState → Prop} (xs : List α) (h : I s)
    (hf : ∀ x ∈ xs, ∀ s', I s' → Ends (f x) s' fun _ => I) :
    Ends (xs.forM f) s fun _ => I := by
  induction xs generalizing s with
  | nil => exact h
  | cons x xs ih =>
    exact (hf x List.mem_cons_self s h).bind fun _ s' hs' =>
      ih hs' fun y hy => hf y (List.mem_cons_of_mem x hy)

/-! ## Written types and declarations -/

/-- A computation that can be refused is run, and what follows looks at how it ended. -/
theorem ends_run_bind {ε : Type} {act : ExceptT ε StoreM α} {k : Except ε α → CheckM β}
    {E : Store → Prop} {Q : α → Store → Prop} {R : β → CheckState → Prop}
    (h : Gives act s.store E Q)
    (hok : ∀ a st', Q a st' → Ends (k (.ok a)) { s with store := st' } R)
    (herror : ∀ e st', E st' → Ends (k (.error e)) { s with store := st' } R) :
    Ends (build act.run >>= k) s R := by
  have hrun : (build act.run >>= k) s =
      k (act.run s.store).1 { s with store := (act.run s.store).2 } := rfl
  unfold Ends
  rw [hrun]
  rcases h with ⟨a, st', hact, hQ⟩ | ⟨e, st', hact, hE⟩
  · rw [hact]
    exact hok a st' hQ
  · rw [hact]
    exact herror e st' hE

/-- A declaration is refused and that is reported, or it has a result. -/
theorem ends_declareAt {span : Span} {act : DeclM α} {E : Store → Prop} {Q : α → Store → Prop}
    (h : Gives act s.store E Q) :
    Ends (declareAt span act) s fun made s' => s.OnlyTypes s' ∧
      match made with
      | some a => Q a s'.store
      | none => E s'.store ∧ ¬ s'.Clean := by
  refine ends_run_bind h ?_ ?_
  · intro a st' hQ
    exact ends_pure ⟨s.onlyTypes_store st', hQ⟩
  · intro e st' hE
    refine (ends_report _ _).bind ?_
    rintro _ s' ⟨hsame, hstore, hdirty⟩
    exact ends_pure ⟨(s.onlyTypes_store st').trans hsame, by rw [hstore]; exact hE, hdirty⟩

/-- A written type resolves, or that it does not is reported. -/
theorem ends_resolve {D : Declarations} (w : TypeExpr) (span : Span) (hco : s.store.Coherent)
    (htype : s.store.declarations.type? = D.type?) :
    Ends (resolve w span) s fun ty s' => s.Advances s' ∧ ty < s'.store.size ∧
      (s'.Clean → Resolves D s'.store w ty) := by
  refine ends_run_bind (resolvesWell D span w s.store hco htype) ?_ ?_
  · rintro ty st' ⟨hends, hresolves⟩
    exact ends_pure ⟨⟨s.onlyTypes_store st', hends.1, hends.2⟩, hresolves.1, fun _ => hresolves⟩
  · intro f st' hends
    refine (ends_report f _).bind ?_
    rintro _ s' ⟨hsame, hstore, hdirty⟩
    exact ends_pure ⟨⟨(s.onlyTypes_store st').trans hsame, by rw [hstore]; exact hends.1,
      by rw [hstore]; exact hends.2⟩, lt_size_of_prim .error, fun hclean => absurd hclean hdirty⟩

theorem ends_resolve_sound (w : TypeExpr) (span : Span) (hco : s.store.Coherent) :
    Ends (resolve w span) s fun ty s' => s.Advances s' ∧ s'.Sound ty :=
  (ends_resolve w span hco rfl).mono fun _ _ ⟨hadv, hlt, hresolves⟩ =>
    ⟨hadv, hlt, fun hclean => (hresolves hclean).whole⟩

theorem ends_resolveEach {D : Declarations} (ws : List TypeExpr) (span : Span)
    (hco : s.store.Coherent) (htype : s.store.declarations.type? = D.type?) :
    Ends (resolveEach ws span) s fun tys s' => s.Advances s' ∧ List.Forall₂ (fun w ty =>
      ty < s'.store.size ∧ (s'.Clean → Resolves D s'.store w ty)) ws tys := by
  refine ends_mapM (P := fun w ty s' =>
    ty < s'.store.size ∧ (s'.Clean → Resolves D s'.store w ty)) ws hco ?_ ?_
  · intro w ty s₁ s₂ hadv h
    exact ⟨lt_size_of_le hadv.store.le h.1, fun hclean => (h.2 (hadv.clean hclean)).of_le hadv.store.le⟩
  · intro w _ s' hs'
    exact ends_resolve w span hs'.coherent ((hs'.type? hco).trans htype)

/-! ## Types -/

/-- The types that a declaration has put on the list of those that wait for a body. -/
def PendingType.ids : PendingType → List TypeId
  | .product ty _ _ => [ty]
  | .sum ty tags _ => ty :: tags.map (·.1)

/-- A type on the list is declared, and the tags of a sum are declared over its parameters. -/
def PendingType.Fits (st : Store) : PendingType → Prop
  | .product ty _ _ => ∃ name params, st.Declares name ty .product params
  | .sum ty tags _ => ∃ name params, st.Declares name ty .sum params ∧
      ∀ tag ∈ tags, ∃ tagName, st.Declares tagName tag.1 .product params

theorem PendingType.Fits.of_more {st st' : Store} {pending : PendingType} (h : pending.Fits st)
    (hmore : st.DeclaresMore st') : pending.Fits st' := by
  cases pending with
  | product ty fields span =>
    obtain ⟨name, params, hd⟩ := h
    exact ⟨name, params, hmore.declares hd⟩
  | sum ty tags span =>
    obtain ⟨name, params, hd, htags⟩ := h
    refine ⟨name, params, hmore.declares hd, fun tag htag => ?_⟩
    obtain ⟨tagName, hd'⟩ := htags tag htag
    exact ⟨tagName, hmore.declares hd'⟩

/-- A step of declaring adds to what is declared. -/
structure Declares (declared : List TypeId) (s s' : CheckState) : Prop extends
    CheckState.OnlyTypes s s' where
  more : s.store.DeclaresMore s'.store
  declaring : s'.store.Declaring declared

theorem Declares.refl {declared : List TypeId} (h : s.store.Declaring declared) :
    Declares declared s s :=
  ⟨.refl s, .refl _, h⟩

theorem Declares.trans {declared declared' : List TypeId} {s' s'' : CheckState}
    (h : Declares declared s s') (h' : Declares declared' s' s'') : Declares declared' s s'' :=
  ⟨h.toOnlyTypes.trans h'.toOnlyTypes, h.more.trans h'.more, h'.declaring⟩

theorem ends_declare {kind : DeclKind} {name : Name} {params : List Name} {span : Span}
    {declared : List TypeId} (h : s.store.Declaring declared) :
    Ends (declareAt span (DeclM.declare kind name params)) s fun made s' =>
      Declares (declared ++ made.toList) s s' ∧ ∀ ty ∈ made, ∃ vars,
        s'.store.Declares name ty kind vars ∧ s'.store.Names params vars := by
  refine (ends_declareAt (DeclM.gives_declare kind name params h)).mono ?_
  rintro (_ | ty) s' ⟨hsame, hmade⟩
  · obtain ⟨⟨hstore, -⟩, -⟩ := hmade
    refine ⟨⟨hsame, ?_, ?_⟩, fun ty hty => by cases hty⟩
    · rw [hstore]
      exact .refl _
    · rw [hstore, Option.toList_none, List.append_nil]
      exact h
  · obtain ⟨hdeclaring, hmore, hd⟩ := hmade
    exact ⟨⟨hsame, hmore, hdeclaring⟩, fun ty' hty' => Option.some.inj hty' ▸ hd⟩

/-- A loop that declares types, some of which are refused. -/
theorem ends_mapM_declare {f : α → CheckM (Option β)} (ids : β → List TypeId)
    (Fits : Store → β → Prop) (xs : List α) {declared : List TypeId}
    (h : s.store.Declaring declared)
    (stable : ∀ b st st', st.DeclaresMore st' → Fits st b → Fits st' b)
    (hf : ∀ x ∈ xs, ∀ s₁ declared, s.store.DeclaresMore s₁.store → s₁.store.Declaring declared →
      Ends (f x) s₁ fun made s' =>
        Declares (declared ++ made.toList.flatMap ids) s₁ s' ∧ ∀ b ∈ made, Fits s'.store b) :
    Ends (xs.mapM f) s fun made s' =>
      Declares (declared ++ (made.filterMap fun b => b).flatMap ids) s s' ∧
        ∀ b ∈ made.filterMap fun b => b, Fits s'.store b := by
  induction xs generalizing s declared with
  | nil => exact ends_pure ⟨by simpa using Declares.refl h, by simp⟩
  | cons x xs ih =>
    rw [List.mapM_cons]
    refine (hf x List.mem_cons_self s declared (.refl _) h).bind ?_
    rintro made s₁ ⟨hdecl, hfits⟩
    refine (ih hdecl.declaring fun y hy s' declared hmore =>
      hf y (List.mem_cons_of_mem x hy) s' declared (hdecl.more.trans hmore)).bind ?_
    rintro rest s₂ ⟨hdecl₂, hfits₂⟩
    have hsplit : ((made :: rest).filterMap fun b => b) =
        made.toList ++ rest.filterMap fun b => b := by
      cases made <;> rfl
    refine ends_pure ⟨?_, ?_⟩
    · rw [hsplit, List.flatMap_append, ← List.append_assoc]
      exact hdecl.trans hdecl₂
    · rw [hsplit]
      refine List.forall_mem_append.mpr ⟨fun b hb => ?_, hfits₂⟩
      exact stable b _ _ hdecl₂.more (hfits b (Option.mem_toList.mp hb))

/-- The tags of a sum are declared over the sum's parameters. -/
theorem ends_declareTags (params : List Name) (tags : List TagDecl) {declared : List TypeId}
    {vars : List TypeId} (h : s.store.Declaring declared) (hvars : s.store.Names params vars) :
    Ends (declareTags params tags) s fun made s' =>
      Declares (declared ++ made.map (·.1)) s s' ∧
        ∀ tag ∈ made, tag.2 ∈ tags ∧ ∃ tagName, s'.store.Declares tagName tag.1 .product vars := by
  refine (ends_mapM_declare (fun made : TypeId × TagDecl => [made.1])
    (fun st made => made.2 ∈ tags ∧ ∃ tagName, st.Declares tagName made.1 .product vars) tags h
    ?_ ?_).bind ?_
  · rintro b st st' hmore ⟨hmem, tagName, hd⟩
    exact ⟨hmem, tagName, hmore.declares hd⟩
  · intro tag htag s₁ declared hmore hs₁
    refine (ends_declare hs₁).bind ?_
    rintro made s' ⟨hdecl, hmade⟩
    refine ends_pure ⟨?_, ?_⟩
    · cases made <;> simpa using hdecl
    · intro b hb
      obtain ⟨ty, hty, rfl⟩ := Option.map_eq_some_iff.mp hb
      obtain ⟨vars', hd, hnames⟩ := hmade ty hty
      rw [hnames.unique (hvars.of_le (hmore.le.trans hdecl.more.le))] at hd
      exact ⟨htag, _, hd⟩
  · rintro made s' ⟨hdecl, hfits⟩
    refine ends_pure ⟨?_, hfits⟩
    rw [List.map_eq_flatMap]
    exact hdecl

theorem ends_declareType (d : TypeDecl) {declared : List TypeId}
    (h : s.store.Declaring declared) :
    Ends (declareType d) s fun made s' =>
      Declares (declared ++ made.toList.flatMap PendingType.ids) s s' ∧
        ∀ pending ∈ made, PendingType.Fits s'.store pending := by
  unfold declareType
  split
  · next fields _ =>
    refine (ends_declare h).bind ?_
    rintro made s' ⟨hdecl, hmade⟩
    refine ends_pure ⟨?_, ?_⟩
    · cases made <;> simpa [PendingType.ids] using hdecl
    · intro pending hp
      obtain ⟨ty, hty, rfl⟩ := Option.map_eq_some_iff.mp hp
      obtain ⟨vars, hd, -⟩ := hmade ty hty
      exact ⟨_, vars, hd⟩
  · next tags _ =>
    refine (ends_declare h).bind ?_
    rintro (_ | ty) s₁ ⟨hdecl, hmade⟩
    · exact ends_pure ⟨by simpa using hdecl, fun _ hp => by cases hp⟩
    · obtain ⟨vars, hd, hnames⟩ := hmade ty rfl
      refine (ends_declareTags d.params tags hdecl.declaring hnames).bind ?_
      rintro made s₂ ⟨hdecl₂, hfits⟩
      refine ends_pure ⟨?_, ?_⟩
      · simpa [PendingType.ids] using hdecl.trans hdecl₂
      · intro pending hp
        obtain rfl := Option.some.inj hp
        exact ⟨_, vars, hdecl₂.more.declares hd, fun tag htag => (hfits tag htag).2⟩

/-- A step of giving bodies, after which given types still wait for theirs. -/
structure Defines (waiting : List TypeId) (s s' : CheckState) : Prop extends
    CheckState.OnlyTypes s s' where
  more : s.store.DeclaresMore s'.store
  defining : s'.store.Defining waiting
  faultless : s'.Clean → s.store.Faultless → s'.store.Faultless

theorem Defines.refl {waiting : List TypeId} (h : s.store.Defining waiting) :
    Defines waiting s s :=
  ⟨.refl s, .refl _, h, fun _ hst => hst⟩

theorem Defines.trans {waiting waiting' : List TypeId} {s' s'' : CheckState}
    (h : Defines waiting s s') (h' : Defines waiting' s' s'') : Defines waiting' s s'' where
  toOnlyTypes := h.toOnlyTypes.trans h'.toOnlyTypes
  more := h.more.trans h'.more
  defining := h'.defining
  faultless hclean hst := h'.faultless hclean (h.faultless (h'.clean hclean) hst)

/-- A product that waits gets its fields. -/
theorem ends_defineFields {ty : TypeId} (fields : List FieldDecl) (span : Span)
    {waiting params : List TypeId} {name : Name} (h : s.store.Defining (ty :: waiting))
    (hd : s.store.Declares name ty .product params) :
    Ends (defineFields ty fields span) s fun _ s' =>
      Defines waiting s s' ∧ s'.store.Untied params ty ∧
        ∀ ps tag, s.store.Untied ps tag → s'.store.Untied ps tag := by
  refine (ends_mapM (P := fun _ ty s' => s'.Sound ty) fields h.coherent
    (fun _ _ _ _ hadv h => h.of_advances hadv)
    fun f _ s' hs' => ends_resolve_sound f.written f.span hs'.coherent).bind ?_
  rintro types s₁ ⟨hadv, htypes⟩
  have hsound : ∀ f ∈ types, s₁.Sound f := fun f hf => by
    obtain ⟨_, -, h⟩ := exists_mem_of_forall₂ htypes hf
    exact h
  have hlen : (fields.map (·.name)).length = types.length := by
    rw [List.length_map, htypes.length_eq]
  have hgives := DeclM.gives_defineProduct (h.of_endsWell hadv.endsWell) (hadv.store.declares hd)
    (fun f hf => (hsound f hf).1) hlen
  refine (ends_declareAt hgives).bind ?_
  rintro made s₂ ⟨hsame, hmade⟩
  have hdone : s₂.store.Defining waiting ∧ SameButBodies s₁.store s₂.store ∧
      s₂.store.Untied params ty ∧
      (∀ ps tag, s₁.store.Untied ps tag → s₂.store.Untied ps tag) ∧
        (s₁.store.Faultless → (∀ f ∈ types, s₁.store.Whole f) → s₂.store.Faultless) := by
    cases made with
    | none => exact hmade.1
    | some _ => exact hmade
  obtain ⟨hdefining, hbodies, huntied, hkeeps, hfaultless⟩ := hdone
  refine ends_pure ⟨⟨hadv.toOnlyTypes.trans hsame,
    hadv.store.declaresMore.trans hbodies.declaresMore, hdefining, ?_⟩, huntied, ?_⟩
  · exact fun hclean hst => hfaultless (hadv.store.faultless hst) fun f hf =>
      (hsound f hf).2 (hsame.clean hclean)
  · exact fun ps tag htag => hkeeps ps tag (htag.of_advances hadv.store)

/-- The tags of a sum get their fields one after the other. -/
theorem ends_defineTags (tags : List (TypeId × TagDecl)) {rest params : List TypeId}
    (h : s.store.Defining (tags.map (·.1) ++ rest))
    (htags : ∀ tag ∈ tags, ∃ name, s.store.Declares name tag.1 .product params) :
    Ends (tags.forM fun tag => defineFields tag.1 tag.2.fields tag.2.span) s fun _ s' =>
      Defines rest s s' ∧ (∀ tag ∈ tags, s'.store.Untied params tag.1) ∧
        ∀ ps tag, s.store.Untied ps tag → s'.store.Untied ps tag := by
  induction tags generalizing s with
  | nil => exact ends_pure ⟨.refl h, by simp, fun _ _ htag => htag⟩
  | cons tag tags ih =>
    obtain ⟨⟨name, hd⟩, htags⟩ := List.forall_mem_cons.mp htags
    refine (ends_defineFields tag.2.fields tag.2.span h hd).bind ?_
    rintro _ s₁ ⟨hdefines, huntied, hkeeps⟩
    refine (ih hdefines.defining fun t ht => ?_).mono ?_
    · obtain ⟨name', hd'⟩ := htags t ht
      exact ⟨name', hdefines.more.declares hd'⟩
    · rintro _ s₂ ⟨hdefines₂, huntied₂, hkeeps₂⟩
      exact ⟨hdefines.trans hdefines₂, List.forall_mem_cons.mpr ⟨hkeeps₂ _ _ huntied, huntied₂⟩,
        fun ps t ht => hkeeps₂ ps t (hkeeps ps t ht)⟩

/-- A type that waits gets its body. -/
theorem ends_defineType (pending : PendingType) {rest : List TypeId}
    (h : s.store.Defining (pending.ids ++ rest)) (hfits : pending.Fits s.store) :
    Ends (defineType pending) s fun _ s' => Defines rest s s' := by
  cases pending with
  | product ty fields span =>
    obtain ⟨name, params, hd⟩ := hfits
    exact (ends_defineFields fields span h hd).mono fun _ _ h => h.1
  | sum ty tags span =>
    obtain ⟨name, params, hd, htags⟩ := hfits
    have hdefining : s.store.Defining (tags.map (·.1) ++ ty :: rest) :=
      h.perm List.perm_middle.symm
    refine (ends_defineTags tags hdefining htags).bind ?_
    rintro _ s₁ ⟨hdefines, huntied, -⟩
    have hfree : ∀ tag ∈ tags.map (·.1), s₁.store.Untied params tag ∧ tag ∉ ty :: rest := by
      intro tag htag
      obtain ⟨t, ht, rfl⟩ := List.mem_map.mp htag
      exact ⟨huntied t ht, fun hmem => (List.nodup_append.mp hdefining.nodup).2.2 _ htag _ hmem rfl⟩
    refine (ends_declareAt (DeclM.gives_defineSum hdefines.defining
      (hdefines.more.declares hd) hfree)).bind ?_
    rintro made s₂ ⟨hsame, hmade⟩
    have hdone : s₂.store.Defining rest ∧ SameButBodies s₁.store s₂.store ∧
        (s₁.store.Faultless → s₂.store.Faultless) := by
      cases made with
      | none => exact hmade.1
      | some _ => exact hmade
    obtain ⟨hdefining₂, hbodies, hfaultless⟩ := hdone
    exact ends_pure (hdefines.trans
      ⟨hsame, hbodies.declaresMore, hdefining₂, fun _ hst => hfaultless hst⟩)

theorem ends_defineTypes (pending : List PendingType)
    (h : s.store.Defining (pending.flatMap PendingType.ids))
    (hfits : ∀ p ∈ pending, PendingType.Fits s.store p) :
    Ends (pending.forM defineType) s fun _ s' => Defines [] s s' := by
  induction pending generalizing s with
  | nil => exact ends_pure (.refl h)
  | cons p pending ih =>
    obtain ⟨hp, hfits⟩ := List.forall_mem_cons.mp hfits
    refine (ends_defineType p h hp).bind fun _ s₁ hdefines => ?_
    exact (ih hdefines.defining fun q hq => (hfits q hq).of_more hdefines.more).mono
      fun _ _ hdefines₂ => hdefines.trans hdefines₂

/-- Once types are registered, each that is declared has a body. -/
theorem ends_registerTypes (types : List TypeDecl) (h : s.store.Declaring []) :
    Ends (registerTypes types) s fun _ s' => s.OnlyTypes s' ∧ s'.store.Defining [] ∧
      (s'.Clean → s'.store.Faultless) := by
  refine (ends_mapM_declare PendingType.ids PendingType.Fits types h
    (fun _ _ _ hmore hfits => hfits.of_more hmore)
    fun d _ _ _ _ hs' => ends_declareType d hs').bind ?_
  rintro pending s₁ ⟨hdecl, hfits⟩
  refine (ends_defineTypes _ hdecl.declaring.defining hfits).mono fun _ s₂ hdefines => ?_
  refine ⟨hdecl.toOnlyTypes.trans hdefines.toOnlyTypes, hdefines.defining, fun hclean => ?_⟩
  -- before the first body is given there is none
  refine hdefines.faultless hclean fun ty b hb => ?_
  rw [hdecl.declaring.bodies] at hb
  cases hb

end CheckM

/-! ## Traits and implementations -/

namespace CheckState

variable {s s' : CheckState}

/-- Everything declared fits together and has its body, and methods have function types of the store.
As long as nothing is reported, the error type is in no body and no method. -/
structure Registered (s : CheckState) : Prop where
  coherent : s.store.Coherent
  complete : s.store.Complete
  traced : s.store.Traced
  methods : s.traits.MethodsHave s.Callable
  faultless : s.Clean → s.store.Faultless

/-- A registered state stays one when types are built and instances are made. -/
theorem Registered.of_endsWell (h : s.Registered) (hends : DeclM.EndsWell s.store s'.store)
    (herrors : s.log.errorCount ≤ s'.log.errorCount) (hmethods : s'.traits.MethodsHave s'.Callable) :
    s'.Registered where
  coherent := hends.2
  complete := hends.1.complete h.coherent h.complete
  traced := hends.1.traced h.traced
  methods := hmethods
  faultless hclean := hends.1.faultless (h.faultless (Nat.le_zero.mp (herrors.trans_eq hclean)))

theorem Registered.of_advances (h : s.Registered) (hadv : s.Advances s') : s'.Registered :=
  h.of_endsWell hadv.endsWell hadv.errors (by
    rw [hadv.traits]
    exact h.methods.mono fun _ hty => hty.of_le hadv.store.le hadv.errors)

end CheckState

namespace CheckM

variable {s : CheckState}

/-- The types of a method resolve. -/
theorem ends_methodSig (m : MethodDecl) (hco : s.store.Coherent) :
    Ends (do
      let params ← resolveEach m.params m.span
      let ret ← resolve m.ret m.span
      return ({ name := m.name, params, ret } : MethodSig)) s fun sig s' =>
        s.Advances s' ∧ sig.Have s'.Sound := by
  refine (ends_resolveEach m.params m.span hco rfl).bind ?_
  rintro params s₁ ⟨hadv₁, hparams⟩
  refine (ends_resolve_sound m.ret m.span hadv₁.coherent).bind ?_
  rintro ret s₂ ⟨hadv₂, hret⟩
  refine ends_pure ⟨hadv₁.trans hadv₂, fun p hp => ?_, hret⟩
  obtain ⟨w, -, hlt, hresolves⟩ := exists_mem_of_forall₂ hparams hp
  exact CheckState.Sound.of_advances ⟨hlt, fun hclean => (hresolves hclean).whole⟩ hadv₂

theorem ends_registerTrait (d : TraitDecl) (h : s.Registered) :
    Ends (registerTrait d) s fun _ s' => s'.Registered ∧ s.SameFunctions s' := by
  refine (ends_mapM (P := fun _ sig s' => sig.Have s'.Sound) d.methods h.coherent
    (fun _ _ _ _ hadv h => h.mono fun _ hty => hty.of_advances hadv)
    fun m _ s' hs' => ends_methodSig m hs'.coherent).bind ?_
  rintro methods s₁ ⟨hadv, hmethods⟩
  have hs₁ := h.of_advances hadv
  have hsound : ∀ m ∈ methods, m.Have s₁.Sound := fun m hm => by
    obtain ⟨_, -, h⟩ := exists_mem_of_forall₂ hmethods hm
    exact h
  obtain ⟨hadds, hentries⟩ := s₁.traits.addsTraits_register d.name d.params methods hs₁.coherent
    fun m hm => (hsound m hm).mono fun _ hty => hty.1
  refine ends_get_bind ?_
  refine Ends.bind (Q := fun r s' =>
    r = (s₁.traits.register d.name d.params methods s₁.store).1 ∧
    s' = { s₁ with store := (s₁.traits.register d.name d.params methods s₁.store).2 })
    (ends_build ⟨rfl, rfl⟩) ?_
  rintro result s₂ ⟨hresult, rfl⟩
  have hadv₂ : s₁.Advances
      { s₁ with store := (s₁.traits.register d.name d.params methods s₁.store).2 } :=
    ⟨s₁.onlyTypes_store _, hadds.advances, hadds.coherent⟩
  cases result with
  | error e =>
    refine (ends_report _ _).mono ?_
    rintro _ s₃ ⟨hsame, hstore, -⟩
    have hadv₃ : CheckState.Advances _ s₃ :=
      ⟨hsame, by rw [hstore]; exact .refl _, by rw [hstore]; exact hadds.coherent⟩
    exact ⟨(hs₁.of_advances hadv₂).of_advances hadv₃,
      ((hadv.trans hadv₂).trans hadv₃).toSameFunctions⟩
  | ok r =>
    refine ends_modify ⟨hs₁.of_endsWell hadds.endsWell le_rfl ?_,
      hadv.toSameFunctions.trans ⟨rfl, rfl, rfl, le_rfl⟩⟩
    refine hentries r hresult.symm _
      (hs₁.methods.mono fun _ hty => hty.of_le hadds.advances.le le_rfl) ?_
    rintro - ty ⟨hlt, hfunction, -, hwhole⟩
    exact ⟨⟨hlt, fun hclean => hwhole fun m hm => (hsound m hm).mono fun _ hty => hty.2 hclean⟩,
      hfunction⟩

/-- A trait type is the one that a reference to a trait stands for. -/
def Refers (D : Declarations) (st : Store) (r : TraitRef) (o : TypeId) : Prop :=
  o < st.size ∧ ∃ subject args, st.tree o = .mk (.trait r.traitName subject args) ∧
    List.Forall₂ (D.Denotes TypeTree.var) r.args (subject :: args)

theorem Refers.of_le {D : Declarations} {st st' : Store} {r : TraitRef} {o : TypeId}
    (h : Refers D st r o) (hle : st ≤ st') : Refers D st' r o :=
  ⟨lt_size_of_le hle h.1, by rw [tree_of_le hle h.1]; exact h.2⟩

theorem Refers.bare {D : Declarations} {st : Store} {r : TraitRef} {o : TypeId}
    (h : Refers D st r o) : Refers D st r (st.bare o) :=
  ⟨bare_lt_size h.1, by rw [tree_bare]; exact h.2⟩

theorem Refers.whole {D : Declarations} {st : Store} {r : TraitRef} {o : TypeId}
    (h : Refers D st r o) : st.Whole o := by
  obtain ⟨hlt, subject, args, htree, hargs⟩ := h
  refine ⟨hlt, ?_⟩
  rw [htree, TypeTree.faultless_mk]
  refine ⟨rfl, fun t ht => ?_⟩
  obtain ⟨w, -, hdenotes⟩ := exists_mem_of_forall₂ hargs ht
  exact hdenotes.faultless TypeTree.faultless_var

/-- A reference to a trait gives a trait type, or it is refused and that is reported. -/
theorem ends_resolveTraitRef {D : Declarations} (explain : TraitError → TypeFault) (r : TraitRef)
    (hco : s.store.Coherent) (htype : s.store.declarations.type? = D.type?) :
    Ends (resolveTraitRef explain r) s fun made s' => s.Advances s' ∧
      (∀ o ∈ made, o < s'.store.size) ∧ (s'.Clean → ∃ o, made = some o ∧ Refers D s'.store r o) := by
  have hrefuse : ∀ {s₁ : CheckState} (f : TypeFault), s.Advances s₁ →
      Ends (do report f; return none) s₁ fun (made : Option TypeId) s' => s.Advances s' ∧
        (∀ o ∈ made, o < s'.store.size) ∧
        (s'.Clean → ∃ o, made = some o ∧ Refers D s'.store r o) := by
    intro s₁ f hadv
    refine (ends_report f s₁).bind ?_
    rintro _ s₂ ⟨hsame, hstore, hdirty⟩
    refine ends_pure ⟨hadv.trans ⟨hsame, by rw [hstore]; exact .refl _, ?_⟩, by simp,
      fun hclean => absurd hclean hdirty⟩
    rw [hstore]
    exact hadv.coherent
  refine (ends_resolveEach r.args r.span hco htype).bind ?_
  rintro tys s₁ ⟨hadv, htys⟩
  cases tys with
  | nil => exact hrefuse _ hadv
  | cons subject args =>
    refine ends_get_bind ?_
    refine Ends.bind (Q := fun o s' =>
      o = (s₁.traits.obligation r.traitName subject args s₁.store).1 ∧
      s' = { s₁ with store := (s₁.traits.obligation r.traitName subject args s₁.store).2 })
      (ends_build ⟨rfl, rfl⟩) ?_
    rintro result s₂ ⟨hresult, rfl⟩
    have hadv₂ := hadv.trans (.of_builds hadv.coherent
      (TraitTable.builds_obligation s₁.traits r.traitName subject args))
    cases result with
    | error e => exact hrefuse _ hadv₂
    | ok o =>
      have hargs : ∀ a ∈ subject :: args, a < s₁.store.size := fun a ha => by
        obtain ⟨w, -, h⟩ := exists_mem_of_forall₂ htys ha
        exact h.1
      obtain ⟨hlt, htree⟩ := TraitTable.obligation_spec hresult.symm hargs
      refine ends_pure ⟨hadv₂, fun o' ho' => ?_, fun hclean => ⟨o, rfl, hlt, _, _, htree, ?_⟩⟩
      · obtain rfl := Option.some.inj ho'
        exact hlt
      · rw [← List.map_cons]
        exact List.forall₂_map_right_iff.mpr (htys.imp fun _ _ h => (h.2 hclean).2)

theorem ends_registerImpl (d : TraitRef) (h : s.Registered) :
    Ends (registerImpl d) s fun _ s' => s'.Registered ∧ s.SameFunctions s' := by
  refine (ends_resolveTraitRef _ d h.coherent rfl).bind ?_
  rintro made s₁ ⟨hadv, -⟩
  have hs₁ := h.of_advances hadv
  cases made with
  | none => exact ends_pure ⟨hs₁, hadv.toSameFunctions⟩
  | some ty =>
    exact ends_modify ⟨⟨hs₁.coherent, hs₁.complete, hs₁.traced, hs₁.methods, hs₁.faultless⟩,
      hadv.toSameFunctions.trans ⟨rfl, rfl, rfl, le_rfl⟩⟩

/-- What registering types, traits and implementations comes to. -/
theorem ends_register (m : Module) (h : s.store.Declaring []) (ht : s.traits.NoMethods) :
    Ends (do
      registerTypes m.types
      m.traits.forM registerTrait
      m.impls.forM registerImpl) s fun _ s' => s'.Registered ∧ s.SameFunctions s' := by
  refine (ends_registerTypes m.types h).bind ?_
  rintro _ s₁ ⟨hsame, hdef, hfaultless⟩
  have hs₁ : s₁.Registered := by
    refine ⟨hdef.coherent, hdef.complete, hdef.traced, ?_, hfaultless⟩
    rw [hsame.traits]
    exact ht.mono fun _ => False.elim
  refine (ends_forM (I := fun s' => s'.Registered ∧ s.SameFunctions s') m.traits
    ⟨hs₁, hsame.toSameFunctions⟩ ?_).bind fun _ s₂ hs₂ => ends_forM m.impls hs₂ ?_
  · intro d _ s' hs'
    exact (ends_registerTrait d hs'.1).mono fun _ _ h => ⟨h.1, hs'.2.trans h.2⟩
  · intro d _ s' hs'
    exact (ends_registerImpl d hs'.1).mono fun _ _ h => ⟨h.1, hs'.2.trans h.2⟩

end CheckM

end ConstraintTyping
