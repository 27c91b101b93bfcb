import ConstraintTyping.Proofs.Renaming.Nominals

/-!
# Instances side by side

Two stores that declare the same, up to a renaming, answer alike when instances are asked for, and
declare the same afterwards.  Both run with a bound on their depth, and the bounds can differ: the
links of types from before count in them.  So the two recursions are compared at any depths that
suffice, and what suffices is measured on each side by the declarations that are still pending at the
arguments.
-/

namespace ConstraintTyping

open Store StoreM DeclM

/-! ## Stores in which instances are made -/

namespace Store

variable {st st' st'' : Store}

/-- Types, bodies and instances are added, and the same is declared. -/
structure Accrues (st st' : Store) : Prop where
  le : st ≤ st'
  declared : st'.nominals.declared = st.nominals.declared
  variants : ∀ {key : TypeId × List TypeId} {v : TypeId},
    st.nominals.variants[key]? = some v → st'.nominals.variants[key]? = some v

namespace Accrues

theorem refl (st : Store) : st.Accrues st := ⟨le_refl st, rfl, id⟩

theorem trans (h : st.Accrues st') (h' : st'.Accrues st'') : st.Accrues st'' :=
  ⟨h.le.trans h'.le, h'.declared.trans h.declared, fun hv => h'.variants (h.variants hv)⟩

theorem of_nominals (hle : st ≤ st') (hnom : st'.nominals = st.nominals) : st.Accrues st' :=
  ⟨hle, by rw [hnom], fun hv => by rwa [hnom]⟩

theorem declared? (h : st.Accrues st') (name : Name) : st'.declared? name = st.declared? name := by
  rw [Store.declared?, Store.declared?, h.declared]

theorem card_pending_le (h : st.Accrues st') (args : List TypeId) :
    (st'.pending args).card ≤ (st.pending args).card :=
  Finset.card_le_card (pending_subset h.declared h.variants)

end Accrues

theorem SameButBodies.accrues (h : SameButBodies st st') : st.Accrues st' :=
  ⟨h.le, h.declared, fun hv => by rwa [h.variants]⟩

theorem accrues_enterWith {d : TypeId} {args : List TypeId} (shape : Shape TypeId) (b : Body)
    (hnew : st.nominals.variants[(d, args)]? = none) :
    st.Accrues (enterWith d args shape b st).2 := by
  have hentered : (intern shape st).2.Accrues
      (enterVariant d args (intern shape st).1 (intern shape st).2) := by
    refine ⟨le_refl (intern shape st).2, rfl, fun {key v} hv => ?_⟩
    show ((intern shape st).2.nominals.variants.insert (d, args) _)[key]? = some v
    rw [intern_nominals] at hv ⊢
    rw [Std.HashMap.getElem?_insert, if_neg]
    · exact hv
    · rintro heq
      rw [← eq_of_beq heq, hnew] at hv
      cases hv
  have hbuilt : st.Accrues (intern shape st).2 := .of_nominals (intern_le shape st) (intern_nominals _ _)
  unfold enterWith
  exact (hbuilt.trans hentered).trans (sameButBodies_ensureBody _ b _).accrues

/-- An instance that is entered is not pending any more. -/
theorem card_pending_enterWith {name : Name} {d : TypeId} {args : List TypeId} (shape : Shape TypeId)
    (b : Body) (hd : st.declared? name = some d)
    (hnew : st.nominals.variants[(d, args)]? = none) :
    ((enterWith d args shape b st).2.pending args).card < (st.pending args).card := by
  have haccrues := accrues_enterWith shape b hnew
  refine card_pending_lt haccrues.declared haccrues.variants hd hnew
    (v := (enterWith d args shape b st).1) ?_
  rw [variants_enterWith, Std.HashMap.getElem?_insert_self]

end Store

/-! ## The steps of making an instance -/

namespace DeclM

/-- The instance that there is, or one that is made. -/
def findOr (ty : TypeId) (args : List TypeId) (make : Store → TypeId → DeclM TypeId) :
    DeclM TypeId := do
  let decl ← declarationFor ty args
  let st ← get
  if st.nominalArgs decl = args then
    return decl
  if let some variant := st.nominals.variants[(decl, args)]? then
    return variant
  make st decl

/-- A new instance is entered with its body. -/
def enterThen {α : Type} (d : TypeId) (args : List TypeId) (shape : Shape TypeId) (b : Body)
    (rest : TypeId → DeclM α) : DeclM α := do
  let v ← (StoreM.intern shape : StoreM TypeId)
  modify (enterVariant d args v)
  modify (ensureBody v b)
  rest v

theorem enterThen_run {α : Type} {d : TypeId} {args : List TypeId} {shape : Shape TypeId} {b : Body}
    {rest : TypeId → DeclM α} (st : Store) : (enterThen d args shape b rest).run st =
      (rest (enterWith d args shape b st).1).run (enterWith d args shape b st).2 := rfl

/-- How an instance of a product goes on once it is entered. -/
def tieTo (inst : TypeId → List TypeId → DeclM TypeId) (args : List TypeId) (sum : Option TypeId)
    (v : TypeId) : DeclM TypeId := do
  if let some sum := sum then
    let sumVariant ← inst sum args
    modify (·.bindParent v sumVariant)
  return v

theorem variantWith_eq (inst : TypeId → List TypeId → DeclM TypeId) (parent : TypeId)
    (parts args : List TypeId) : variantWith inst parent parts args =
      findOr parent args fun st d =>
        match st.kind d with
        | .product =>
          enterThen d args (variantShape (st.shape d) args) (.product (productOver st d parts))
            (tieTo inst args ((st.productBody? d).bind (·.parent)))
        | .sum =>
          enterThen d args (variantShape (st.shape d) args) (.sum parts) fun v => do
            modify (·.bindParents v parts)
            return v
        | _ => do
          let v ← (StoreM.intern (variantShape (st.shape d) args) : StoreM TypeId)
          modify (enterVariant d args v)
          return v := by
  unfold variantWith findOr
  congr 1
  funext d
  congr 1
  funext st
  split
  · rfl
  cases st.nominals.variants[(d, args)]? with
  | some v => rfl
  | none =>
    dsimp only
    cases st.kind d
    case product =>
      unfold enterThen tieTo productOver
      congr 1
      funext v
      congr 1
      funext _
      cases st.productBody? d with
      | none => rfl
      | some body =>
        obtain ⟨fields, fieldNames, parent⟩ := body
        cases parent <;> rfl
    all_goals rfl

theorem instantiateWithin_succ (depth : Nat) (ty : TypeId) (args : List TypeId) :
    instantiateWithin (depth + 1) ty args = findOr ty args (fun st d => do
      let parts ← match st.kind d with
        | .product =>
          (((st.productBody? d).map (·.fields)).getD []).mapM fun field =>
            (StoreM.substituteAll ((st.nominalArgs d).zip args) field : StoreM TypeId)
        | .sum => ((st.sumTags? d).getD []).mapM fun tag => instantiateWithin depth tag args
        | _ => pure []
      variantWith (instantiateWithin depth) d parts args) :=
  rfl

end DeclM

/-! ## Two computations -/

/-- Two stores side by side to which more can accrue. -/
structure Accruing where
  stores : Stores

instance : Preorder Accruing where
  le u u' := u.stores.1.Accrues u'.stores.1 ∧ u.stores.2.Accrues u'.stores.2
  le_refl u := ⟨.refl _, .refl _⟩
  le_trans _ _ _ h h' := ⟨h.1.trans h'.1, h.2.trans h'.2⟩

theorem Accruing.stores_le {u u' : Accruing} (h : u ≤ u') : u.stores ≤ u'.stores :=
  ⟨h.1.le, h.2.le⟩

namespace Renaming

variable {R : Renaming} {old w w' : Stores} {u u' : Accruing} {a b c c' d d' v v' : TypeId}
  {as bs parts parts' : List TypeId} {k : DeclKind} {κ : Kind} {α β γ δ : Type}

/-! ## Refusals -/

/-- Refusals of one kind, about types that are alike. -/
inductive AlikeRefusal (R : Renaming) (w : Stores) : DeclError → DeclError → Prop
  | redeclared (name : Name) : AlikeRefusal R w (.redeclared name) (.redeclared name)
  | notNominal {a b : TypeId} (h : R.Alike w a b) : AlikeRefusal R w (.notNominal a) (.notNominal b)
  | argCount (expected found : Nat) :
    AlikeRefusal R w (.argCount expected found) (.argCount expected found)
  | bodyAlreadyDefined {a b : TypeId} (h : R.Alike w a b) :
    AlikeRefusal R w (.bodyAlreadyDefined a) (.bodyAlreadyDefined b)
  | bodyNotDefined {a b : TypeId} (h : R.Alike w a b) :
    AlikeRefusal R w (.bodyNotDefined a) (.bodyNotDefined b)
  | tagParamsMismatch {tag tag' sum sum' : TypeId} (h : R.Alike w tag tag') (hs : R.Alike w sum sum') :
    AlikeRefusal R w (.tagParamsMismatch tag sum) (.tagParamsMismatch tag' sum')

theorem AlikeRefusal.of_le {e e' : DeclError} (h : R.AlikeRefusal w e e') (hle : w ≤ w') :
    R.AlikeRefusal w' e e' := by
  cases h with
  | redeclared name => exact .redeclared name
  | notNominal h => exact .notNominal (h.of_le hle)
  | argCount expected found => exact .argCount expected found
  | bodyAlreadyDefined h => exact .bodyAlreadyDefined (h.of_le hle)
  | bodyNotDefined h => exact .bodyNotDefined (h.of_le hle)
  | tagParamsMismatch h hs => exact .tagParamsMismatch (h.of_le hle) (hs.of_le hle)

/-! ## The triple -/

/-- Two stores in lockstep that declare the same are the states of two computations. -/
structure InUnit (R : Renaming) (old w : Stores) (s t : Store) : Prop extends R.InStep w s t where
  declare : R.DeclareAlike old w

/-- Two computations answer alike, and what was declared is declared at their end. -/
abbrev Makes (R : Renaming) (old : Stores) (x : DeclM α) (y : DeclM β) (u : Accruing)
    (Q : Stores → α → β → Prop) : Prop :=
  Coupled (fun u : Accruing => R.InUnit old u.stores) x.run y.run u
    fun u => RelExcept (R.AlikeRefusal u.stores) (Q u.stores)

theorem makes_get_bind {f : Store → DeclM γ} {g : Store → DeclM δ} {Q : Stores → γ → δ → Prop}
    (h : R.DeclareAlike old u.stores → R.Makes old (f u.stores.1) (g u.stores.2) u Q) :
    R.Makes old (get >>= f) (get >>= g) u Q := by
  refine coupled_getExcept ?_
  rintro _ _ ⟨⟨rfl, rfl, hlock⟩, hdecl⟩
  exact h hdecl

/-- Types that are built side by side. -/
theorem Couples.makes {x : StoreM α} {y : StoreM β} {Q : Stores → α → β → Prop}
    (h : R.Couples x y u.stores Q) (hx : x.Builds) (hy : y.Builds) :
    R.Makes old (liftM x) (liftM y) u Q := by
  rintro s t ⟨⟨rfl, rfl, hlock⟩, hdecl⟩
  obtain ⟨w', hle, ⟨hl, hr, hlock'⟩, hQ⟩ := h _ _ ⟨rfl, rfl, hlock⟩
  have hnom : w'.1.nominals = u.stores.1.nominals := hl ▸ (hx _).2
  have hnom' : w'.2.nominals = u.stores.2.nominals := hr ▸ (hy _).2
  exact ⟨⟨w'⟩, ⟨.of_nominals hle.1 hnom, .of_nominals hle.2 hnom'⟩,
    ⟨⟨hl, hr, hlock'⟩, hdecl.of_nominals hle hnom hnom'⟩, .ok hQ⟩

/-- Bodies that change side by side. -/
theorem makes_modify {f g : Store → Store} (hf : ∀ st, SameButBodies st (f st))
    (hg : ∀ st, SameButBodies st (g st))
    (h : R.DeclareAlike old u.stores → R.DeclareAlike old (f u.stores.1, g u.stores.2)) :
    R.Makes old (modify f) (modify g) u fun _ _ _ => True := by
  rintro s t ⟨⟨rfl, rfl, hlock⟩, hdecl⟩
  refine ⟨⟨f u.stores.1, g u.stores.2⟩, ⟨(hf _).accrues, (hg _).accrues⟩, ⟨⟨rfl, rfl, ?_⟩, h hdecl⟩,
    .ok trivial⟩
  refine hlock.of_count ?_ ?_
  · show (f u.stores.1).table.freshCount = _
    rw [(hf _).table]
  · show (g u.stores.2).table.freshCount = _
    rw [(hg _).table]

theorem stable_alike_accruing (R : Renaming) : Stable fun u : Accruing => R.Alike u.stores :=
  fun _ _ _ _ hle h => h.of_le (Accruing.stores_le hle)

theorem stable_alikeOf_accruing (R : Renaming) (κ : Kind) :
    Stable fun u : Accruing => R.AlikeOf κ u.stores :=
  fun _ _ _ _ hle h => h.of_le (Accruing.stores_le hle)

/-! ## Looking instances up -/

theorem makes_declarationFor (hab : R.AlikeOf k.kind u.stores a b) (hargs : R.AllAlike u.stores as bs) :
    R.Makes old (declarationFor a as) (declarationFor b bs) u (R.AlikeDecl k) := by
  refine makes_get_bind fun hdecl => ?_
  have hrel := hdecl.declOf? hab
  generalize u.stores.1.declOf? a = x at hrel
  generalize u.stores.2.declOf? b = y at hrel
  cases hrel with
  | none => exact coupled_refuse (.notNominal hab.toAlike)
  | some hdd =>
    dsimp only
    rw [← hdd.alike.nominalArgs.length_eq, ← hargs.length_eq]
    split
    · exact coupled_refuse (.argCount _ _)
    · exact coupled_pureExcept hdd

theorem makes_findOr {make make' : Store → TypeId → DeclM TypeId}
    (hab : R.AlikeOf k.kind u.stores a b) (hargs : R.AllAlike u.stores as bs)
    (hmake : ∀ u' d d', u ≤ u' → R.DeclareAlike old u'.stores → R.AlikeDecl k u'.stores d d' →
      u'.stores.1.nominals.variants[(d, as)]? = none →
      u'.stores.2.nominals.variants[(d', bs)]? = none →
      R.Makes old (make u'.stores.1 d) (make' u'.stores.2 d') u' (R.AlikeOf k.kind)) :
    R.Makes old (findOr a as make) (findOr b bs make') u (R.AlikeOf k.kind) := by
  refine (makes_declarationFor hab hargs).bindExcept fun u' d d' hle hdd => ?_
  have hargs := AllAlike.of_le hargs (Accruing.stores_le hle)
  refine makes_get_bind fun hdecl => ?_
  have hself := AllAlike.eq_iff hdd.alike.nominalArgs hargs
  by_cases heq : u'.stores.1.nominalArgs d = as
  · rw [if_pos heq, if_pos (hself.mp heq)]
    exact coupled_pureExcept hdd.alikeOf
  rw [if_neg heq, if_neg fun heq' => heq (hself.mpr heq')]
  have hrel := hdecl.variant hdd hargs
  generalize hl : u'.stores.1.nominals.variants[(d, as)]? = x at hrel
  generalize hr : u'.stores.2.nominals.variants[(d', bs)]? = y at hrel
  cases hrel with
  | none => exact hmake u' d d' hle hdecl hdd hl hr
  | some hvv => exact coupled_pureExcept hvv

/-! ## Entering an instance -/

theorem like_shape (k : DeclKind) (name : Name) (h : R.AllAlike w as bs) :
    Shape.Like R.name (R.Alike w) (k.shape name as) (k.shape name bs) := by
  cases k with
  | product => exact .product name h
  | sum => exact .sum name h

theorem InUnit.enterWith {name : Name} {params params' : List TypeId} {body body' : Body} {s t : Store}
    (h : R.InUnit old w s t) (hd : w.1.Declares name d k params) (hd' : w.2.Declares name d' k params')
    (hdd : R.Alike w d d') (hargs : R.AllAlike w as bs) (hc : R.AlikeContent w body body') :
    ∃ w', w ≤ w' ∧ R.InUnit old w' (enterWith d as (k.shape name as) body s).2
        (enterWith d' bs (k.shape name bs) body' t).2 ∧
      R.AlikeOf k.kind w' (enterWith d as (k.shape name as) body s).1
        (enterWith d' bs (k.shape name bs) body' t).1 := by
  obtain ⟨⟨rfl, rfl, hlock⟩, hdecl⟩ := h
  obtain ⟨w₁, hle, ⟨hl, hr, hlock₁⟩, hvv⟩ := couples_build (R := R) (like_shape k name hargs)
    (DeclKind.isVar_shape ..) (DeclKind.isQualified_shape ..) _ _ ⟨rfl, rfl, hlock⟩
  have hshape := (@intern_spec w.1 (k.shape name as) (by simpa using hargs.left_lt)).2
  rw [TypeTable.key, if_neg (by simp), DeclKind.map_shape, ← hl] at hshape
  have hnom : w₁.1.nominals = w.1.nominals := hl ▸ rfl
  have hnom' : w₁.2.nominals = w.2.nominals := hr ▸ rfl
  dsimp only [DeclM.enterWith]
  rw [← hl, ← hr]
  generalize (intern (k.shape name as) w.1).1 = v at hvv hshape ⊢
  generalize (intern (k.shape name bs) w.2).1 = v' at hvv ⊢
  have hentered := (hdecl.of_nominals hle hnom hnom').enterVariant
    (declares_of_nominals hle.1 hnom hd) (declares_of_nominals hle.2 hnom' hd') (hdd.of_le hle)
    (AllAlike.of_le hargs hle) hvv hshape
  have hle₂ : w₁ ≤ (enterVariant d as v w₁.1, enterVariant d' bs v' w₁.2) :=
    ⟨le_refl w₁.1, le_refl w₁.2⟩
  have hsame := sameButBodies_ensureBody v body (enterVariant d as v w₁.1)
  have hsame' := sameButBodies_ensureBody v' body' (enterVariant d' bs v' w₁.2)
  have hle₃ : w₁ ≤ (ensureBody v body (enterVariant d as v w₁.1),
      ensureBody v' body' (enterVariant d' bs v' w₁.2)) :=
    ⟨le_trans hle₂.1 hsame.le, le_trans hle₂.2 hsame'.le⟩
  have hkind : w₁.1.kind v = k.kind := by rw [Store.kind, hshape, DeclKind.kind_shape]
  refine ⟨_, le_trans hle hle₃, ⟨⟨rfl, rfl, hlock₁.of_count ?_ ?_⟩, ?_⟩, hvv.of_le hle₃, ?_⟩
  · dsimp only
    rw [hsame.table]
    rfl
  · dsimp only
    rw [hsame'.table]
    rfl
  · exact hentered.ensureBody (hvv.of_le hle₂) (hc.of_le (le_trans hle hle₂)) hkind
      (isSome_declOf_enterVariant d as v w₁.1) (isSome_declOf_enterVariant d' bs v' w₁.2)
  · dsimp only
    rw [kind_of_le hle₃.1 hvv.left_lt]
    exact hkind

/-! ## Making instances -/

theorem makes_enterThen {rest rest' : TypeId → DeclM α} {Q : Stores → α → α → Prop}
    (hdd : R.AlikeDecl k u.stores d d') (hargs : R.AllAlike u.stores as bs)
    {body body' : Body} (hc : R.AlikeContent u.stores body body')
    (hnew : u.stores.1.nominals.variants[(d, as)]? = none)
    (hnew' : u.stores.2.nominals.variants[(d', bs)]? = none)
    (hrest : ∀ u' v v', u ≤ u' → R.AlikeOf k.kind u'.stores v v' →
      (u'.stores.1.pending as).card < (u.stores.1.pending as).card →
      (u'.stores.2.pending bs).card < (u.stores.2.pending bs).card →
      R.Makes old (rest v) (rest' v') u' Q) :
    R.Makes old (enterThen d as (variantShape (u.stores.1.shape d) as) body rest)
      (enterThen d' bs (variantShape (u.stores.2.shape d') bs) body' rest') u Q := by
  intro s t hin
  obtain ⟨name, params, params', hd, hd'⟩ := hdd.declares
  obtain ⟨w', -, hin', hvv⟩ := hin.enterWith hd hd' hdd.alike hargs hc
  obtain ⟨⟨rfl, rfl, -⟩, -⟩ := hin
  rw [hd.shape, hd'.shape, DeclKind.variantShape_shape, DeclKind.variantShape_shape, enterThen_run,
    enterThen_run]
  have hle : u ≤ ⟨w'⟩ := by
    refine ⟨?_, ?_⟩
    · rw [hin'.left]
      exact accrues_enterWith (k.shape name as) body hnew
    · rw [hin'.right]
      exact accrues_enterWith (k.shape name bs) body' hnew'
  have hpending := card_pending_enterWith (k.shape name as) body hd.declared hnew
  have hpending' := card_pending_enterWith (k.shape name bs) body' hd'.declared hnew'
  rw [← hin'.left] at hpending
  rw [← hin'.right] at hpending'
  obtain ⟨u'', hle', hin'', hQ⟩ := hrest ⟨w'⟩ _ _ hle hvv hpending hpending' _ _ hin'
  exact ⟨u'', le_trans hle hle', hin'', hQ⟩

theorem makes_tieTo {inst inst' : TypeId → List TypeId → DeclM TypeId} {sum sum' : Option TypeId}
    (hvv : R.AlikeOf k.kind u.stores v v') (hsum : Option.Rel (R.AlikeOf .sum u.stores) sum sum')
    (hinst : ∀ c c', R.AlikeOf .sum u.stores c c' →
      R.Makes old (inst c as) (inst' c' bs) u (R.AlikeOf .sum)) :
    R.Makes old (tieTo inst as sum v) (tieTo inst' bs sum' v') u (R.AlikeOf k.kind) := by
  unfold tieTo
  cases hsum with
  | none => exact coupled_pureExcept hvv
  | some hc =>
    refine Coupled.bindExcept (r := fun u => R.AlikeOf .sum u.stores) (hinst _ _ hc)
      fun u₁ s s' hle hs => ?_
    have hvv₁ := hvv.of_le (Accruing.stores_le hle)
    refine Coupled.bindExcept (r := fun _ _ _ => True) (makes_modify
      (fun st => sameButBodies_bindParent st v s) (fun st => sameButBodies_bindParent st v' s')
      fun hdecl => hdecl.bindParent hvv₁.toAlike hs) fun u₂ _ _ hle₂ _ => ?_
    exact coupled_pureExcept (hvv₁.of_le (Accruing.stores_le hle₂))

/-- Instances made from given parts.  The sum of a tag is instantiated when fewer declarations are
pending. -/
theorem makes_variantWith {inst inst' : TypeId → List TypeId → DeclM TypeId}
    (hab : R.AlikeOf k.kind u.stores a b) (hargs : R.AllAlike u.stores as bs)
    (hparts : R.AllAlike u.stores parts parts')
    (htags : k = .sum → List.Forall₂ (R.AlikeOf .product u.stores) parts parts')
    (hinst : k = .product → ∀ u' c c', u ≤ u' →
      (u'.stores.1.pending as).card < (u.stores.1.pending as).card →
      (u'.stores.2.pending bs).card < (u.stores.2.pending bs).card → R.AlikeOf .sum u'.stores c c' →
        R.Makes old (inst c as) (inst' c' bs) u' (R.AlikeOf .sum)) :
    R.Makes old (variantWith inst a parts as) (variantWith inst' b parts' bs) u
      (R.AlikeOf k.kind) := by
  rw [variantWith_eq, variantWith_eq]
  refine makes_findOr hab hargs fun u₁ d d' hle hdecl hdd hnew hnew' => ?_
  have hargs₁ := AllAlike.of_le hargs (Accruing.stores_le hle)
  have hparts₁ := AllAlike.of_le hparts (Accruing.stores_le hle)
  have hkind := hdd.alikeOf.kind
  rw [hdd.alike.kind_eq, hkind]
  have hless := hle.1.card_pending_le as
  have hless' := hle.2.card_pending_le bs
  cases k with
  | product =>
    have hbody := hdecl.productBody? hdd.alike
    have hnames : (productOver u₁.stores.2 d' parts').fieldNames =
          (productOver u₁.stores.1 d parts).fieldNames ∧
        Option.Rel (R.AlikeOf .sum u₁.stores) ((u₁.stores.1.productBody? d).bind (·.parent))
          ((u₁.stores.2.productBody? d').bind (·.parent)) := by
      unfold productOver
      generalize u₁.stores.1.productBody? d = x at hbody
      generalize u₁.stores.2.productBody? d' = y at hbody
      cases hbody with
      | none => exact ⟨by dsimp only [Option.map_none, Option.getD_none]; rw [hparts.length_eq], .none⟩
      | some hc =>
        cases hc with
        | product hnames _ hparent => exact ⟨hnames, hparent⟩
    refine makes_enterThen hdd hargs₁ (.product hnames.1 hparts₁ .none) hnew hnew'
      fun u₂ v v' hle₂ hvv hcard hcard' => ?_
    refine makes_tieTo hvv (rel_option_mono hnames.2 fun _ _ h => h.of_le (Accruing.stores_le hle₂))
      fun c c' hc => hinst rfl u₂ c c' (le_trans hle hle₂) ?_ ?_ hc
    · exact lt_of_lt_of_le hcard hless
    · exact lt_of_lt_of_le hcard' hless'
  | sum =>
    have htags₁ : List.Forall₂ (R.AlikeOf .product u₁.stores) parts parts' :=
      (htags rfl).imp fun _ _ h => h.of_le (Accruing.stores_le hle)
    refine makes_enterThen hdd hargs₁ (.sum htags₁) hnew hnew' fun u₂ v v' hle₂ hvv _ _ => ?_
    have hparts₂ := AllAlike.of_le hparts₁ (Accruing.stores_le hle₂)
    refine Coupled.bindExcept (r := fun _ _ _ => True) (makes_modify
      (fun st => sameButBodies_bindParents st v parts)
      (fun st => sameButBodies_bindParents st v' parts')
      fun hdecl => hdecl.bindParents hparts₂ hvv) fun u₃ _ _ hle₃ _ => ?_
    exact coupled_pureExcept (hvv.of_le (Accruing.stores_le hle₃))

/-- Instances at any depths that suffice. -/
theorem makes_instantiateWithin (n n' : Nat) (hab : R.AlikeOf k.kind u.stores a b)
    (hargs : R.AllAlike u.stores as bs)
    (hn : 2 * (u.stores.1.pending as).card + leastDepth k ≤ n)
    (hn' : 2 * (u.stores.2.pending bs).card + leastDepth k ≤ n') :
    R.Makes old (instantiateWithin n a as) (instantiateWithin n' b bs) u (R.AlikeOf k.kind) := by
  induction n generalizing n' a b k u with
  | zero => cases k <;> simp [leastDepth] at hn
  | succ n ih =>
    cases n' with
    | zero => cases k <;> simp [leastDepth] at hn'
    | succ n' =>
      rw [instantiateWithin_succ, instantiateWithin_succ]
      refine makes_findOr hab hargs fun u₁ d d' hle hdecl hdd hnew hnew' => ?_
      have hargs₁ := AllAlike.of_le hargs (Accruing.stores_le hle)
      have hkind := hdd.alikeOf.kind
      have hless : ∀ {u₂ : Accruing}, u₁ ≤ u₂ →
          (u₂.stores.1.pending as).card ≤ (u.stores.1.pending as).card ∧
            (u₂.stores.2.pending bs).card ≤ (u.stores.2.pending bs).card := fun hle₂ =>
        ⟨(le_trans hle hle₂).1.card_pending_le as, (le_trans hle hle₂).2.card_pending_le bs⟩
      rw [hdd.alike.kind_eq, hkind]
      cases k with
      | product =>
        have hmapping := AllAlike.zip hdd.alike.nominalArgs hargs₁
        have hloop := coupled_mapMExcept (e := fun u => R.AlikeRefusal u.stores)
          (S := fun u : Accruing => R.InUnit old u.stores)
          (f := fun field => liftM (substituteAll ((u₁.stores.1.nominalArgs d).zip as) field))
          (g := fun field => liftM (substituteAll ((u₁.stores.2.nominalArgs d').zip bs) field))
          R.stable_alike_accruing R.stable_alike_accruing
          (fun u₂ f f' hle₂ hf => Couples.makes (couples_replaceAll
            (stable_alikePairs R (Accruing.stores_le hle₂) hmapping) hf)
            (builds_substituteAll _ _) (builds_substituteAll _ _)) (hdecl.fields hdd.alike)
        refine hloop.bindExcept fun u₂ parts parts' hle₂ hparts => ?_
        have hargs₂ := AllAlike.of_le hargs₁ (Accruing.stores_le hle₂)
        refine makes_variantWith (hdd.alikeOf.of_le (Accruing.stores_le hle₂)) hargs₂ hparts
          (by intro h; cases h) fun _ u₃ c c' hle₃ hcard hcard' hc => ?_
        -- the sum of a tag is made when the tag is not pending any more
        have hfewer := hless hle₂
        refine ih n' (k := .sum) hc (AllAlike.of_le hargs₂ (Accruing.stores_le hle₃)) ?_ ?_ <;>
          simp only [leastDepth] at hn hn' ⊢ <;> omega
      | sum =>
        have hloop := coupled_mapMExcept (e := fun u => R.AlikeRefusal u.stores)
          (S := fun u : Accruing => R.InUnit old u.stores)
          (f := fun tag => instantiateWithin n tag as) (g := fun tag => instantiateWithin n' tag bs)
          (R.stable_alikeOf_accruing .product) (R.stable_alikeOf_accruing .product)
          (fun u₂ tag tag' hle₂ htag => by
            have hfewer := hless hle₂
            refine ih n' (k := .product) htag (AllAlike.of_le hargs₁ (Accruing.stores_le hle₂)) ?_ ?_ <;>
              simp only [leastDepth] at hn hn' ⊢ <;> omega)
          (hdecl.tags hdd.alike)
        refine hloop.bindExcept fun u₂ parts parts' hle₂ hparts => ?_
        exact makes_variantWith (hdd.alikeOf.of_le (Accruing.stores_le hle₂))
          (AllAlike.of_le hargs₁ (Accruing.stores_le hle₂)) (AllAlike.of_alikeOf hparts)
          (fun _ => hparts) (by intro h; cases h)

end Renaming

end ConstraintTyping
