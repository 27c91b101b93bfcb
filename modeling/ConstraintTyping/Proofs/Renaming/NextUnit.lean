import ConstraintTyping.Proofs.Renaming.Requests

/-!
# The next unit

What one unit has declared is forgotten before the next one is checked, while the types stay.  The
next unit asks for types, declarations, bodies and instances, and speaks of the types that it knows
by their places in the list of what it was answered.  A store that has forgotten what was declared
answers it like any store in which nothing is declared: alike up to the numbers of types and of fresh
variables, and with the same declarations, bodies and instances in the end.
-/

namespace ConstraintTyping

open Store StoreM DeclM

/-! ## Requests -/

/-- A description in the same words of other types. -/
def Description.map (f : TypeId → TypeId) : Description → Description
  | pointer target => pointer (f target)
  | array elem length => array (f elem) length
  | tuple items => tuple (items.map f)
  | aggregate kind parts => aggregate kind (parts.map f)
  | function sig => function (sig.map f)
  | namedVar name => namedVar name
  | traitType name subject args => traitType name (f subject) (args.map f)
  | qualified qualifier base => qualified qualifier (f base)

/-- What a unit asks of a store.  Types are spoken of by their places among those that it knows. -/
inductive Request where
  | construct (description : Description)
  | freshVar
  | substituteAll (mapping : List (Nat × Nat)) (ty : Nat)
  | instantiateFresh (ty : Nat)
  | declare (kind : DeclKind) (name : Name) (params : List Name)
  | declareTrait (name : Name) (params : List Name)
  | defineProduct (decl : Nat) (fields : List Nat) (names : List (Option Name))
  | defineSum (sum : Nat) (tags : List Nat)
  | instantiate (ty : Nat) (args : List Nat)
  | instantiateAtFresh (ty : Nat)
  | materialize (ty : Nat)

/-- What a request is answered: a type, or nothing that could be spoken of, or a refusal. -/
abbrev Answer : Type := Except DeclError (Option TypeId)

namespace Request

/-- The type at a place among those that are known. -/
def typeAt (known : List TypeId) (place : Nat) : TypeId := known.getD place TypeId.unit

/-- A request to a store, where `known` are the types that are known. -/
def ask (known : List TypeId) : Request → DeclM (Option TypeId)
  | construct description => return (← (description.map (typeAt known)).build).toOption
  | freshVar => return some (← StoreM.freshVar)
  | substituteAll mapping ty =>
    return some (← StoreM.substituteAll (mapping.map (Prod.map (typeAt known) (typeAt known)))
      (typeAt known ty))
  | instantiateFresh ty => return some (← StoreM.instantiateFresh (typeAt known ty))
  | declare kind name params => return some (← DeclM.declare kind name params)
  | declareTrait name params => return some (← StoreM.declareTrait name params)
  | defineProduct decl fields names => do
    DeclM.defineProduct (typeAt known decl) (fields.map (typeAt known)) names
    return none
  | defineSum sum tags => do
    DeclM.defineSum (typeAt known sum) (tags.map (typeAt known))
    return none
  | instantiate ty args => return some (← DeclM.instantiate (typeAt known ty) (args.map (typeAt known)))
  | instantiateAtFresh ty => return some (← DeclM.instantiateAtFresh (typeAt known ty))
  | materialize ty => return some (← DeclM.materialize (typeAt known ty))

/-- The types that are known after an answer. -/
def learn (known : List TypeId) : Answer → List TypeId
  | .ok (some ty) => known ++ [ty]
  | _ => known

/-- The answers to requests that are made one after the other, and the store after them. -/
def askAll : List Request → List TypeId → Store → List Answer × Store
  | [], _, st => ([], st)
  | req :: reqs, known, st =>
    let (answer, st₁) := (req.ask known).run st
    let (answers, st₂) := askAll reqs (learn known answer) st₁
    (answer :: answers, st₂)

/-- Instances are not asked for of traits, which outlive what is declared with the instances that they
have. -/
def SparesTraits (known : List TypeId) (st : Store) : Request → Prop
  | instantiate ty _ | instantiateAtFresh ty | materialize ty => st.kind (typeAt known ty) ≠ .trait
  | _ => True

/-- Requests of which each spares the traits of the store that it is put to. -/
def AllSpareTraits : List Request → List TypeId → Store → Prop
  | [], _, _ => True
  | req :: reqs, known, st =>
    req.SparesTraits known st ∧
      AllSpareTraits reqs (learn known ((req.ask known).run st).1) ((req.ask known).run st).2

end Request

namespace Renaming

variable {R : Renaming} {old w w' : Stores} {a b : TypeId} {as bs known known' : List TypeId}
  {α β : Type}

/-! ## Renamings between stores that go on separately -/

/-- Fresh variables get other numbers, those that are handed out next get numbers that are handed out
next, and named variables keep their names. -/
structure Renumbers (R : Renaming) (w : Stores) : Prop where
  lockstep : R.Lockstep w
  named : ∀ name, .named name ∈ R.dom ∧ R.name (.named name) = .named name
  fresh : ∀ {n : Nat}, .fresh n ∈ R.dom → ∃ m, R.name (.fresh n) = .fresh m

/-- New names for two stores that go on: named variables keep theirs, and what is handed out next
stands for each other. -/
def onwardName (w : Stores) : VarIdent → VarIdent
  | .named name => .named name
  | .fresh n => .fresh (n - w.1.table.freshCount + w.2.table.freshCount)

theorem injOn_onwardName (w : Stores) :
    Set.InjOn (onwardName w) { x | ∀ n, x = .fresh n → w.1.table.freshCount ≤ n } := by
  intro x hx y hy heq
  cases x with
  | named name => cases y <;> simp_all [onwardName]
  | fresh n =>
    cases y with
    | named name => cases heq
    | fresh m =>
      have hn := hx n rfl
      have hm := hy m rfl
      have hnm := VarIdent.fresh.inj heq
      congr 1
      omega

/-- The renaming under which two stores go on. -/
def onward (w : Stores) : Renaming where
  name := onwardName w
  dom := { x | ∀ n, x = .fresh n → w.1.table.freshCount ≤ n }
  injOn := injOn_onwardName w

theorem renumbers_onward (w : Stores) : (onward w).Renumbers w where
  lockstep k := by
    refine ⟨?_, ?_⟩
    · rintro n hn
      obtain rfl := VarIdent.fresh.inj hn
      exact Nat.le_add_right _ _
    · show VarIdent.fresh _ = _
      rw [Nat.add_sub_cancel_left, Nat.add_comm]
  named name := ⟨fun _ => nofun, rfl⟩
  fresh _ := ⟨_, rfl⟩

/-! ## One request -/

/-- Answers that are alike: types that are alike, or refusals of one kind. -/
abbrev AlikeAnswer (R : Renaming) (w : Stores) : Answer → Answer → Prop :=
  RelExcept (R.AlikeRefusal w) (Option.Rel (R.Alike w))

theorem AlikeAnswer.of_le {x y : Answer} (h : R.AlikeAnswer w x y) (hle : w ≤ w') :
    R.AlikeAnswer w' x y := by
  cases h with
  | ok h => exact .ok (rel_option_mono h fun _ _ h => h.of_le hle)
  | error h => exact .error (h.of_le hle)

theorem alike_typeAt (h : R.AllAlike w known known') (place : Nat) :
    R.Alike w (Request.typeAt known place) (Request.typeAt known' place) := by
  unfold Request.typeAt
  induction h generalizing place with
  | nil => exact R.alike_prim w .unit
  | cons hab _ ih =>
    cases place with
    | zero => exact hab
    | succ place => exact ih place

theorem allAlike_typeAt (h : R.AllAlike w known known') (places : List Nat) :
    R.AllAlike w (places.map (Request.typeAt known)) (places.map (Request.typeAt known')) := by
  rw [AllAlike, List.forall₂_map_left_iff, List.forall₂_map_right_iff, List.forall₂_same]
  exact fun place _ => alike_typeAt h place

theorem AllAlike.learn {x y : Answer} (h : R.AllAlike w known known') (hxy : R.AlikeAnswer w x y) :
    R.AllAlike w (Request.learn known x) (Request.learn known' y) := by
  cases hxy with
  | error => exact h
  | ok hxy =>
    cases hxy with
    | none => exact h
    | some hab => exact List.rel_append h (.cons hab .nil)

/-! ## Building types -/

theorem Couples.ok {x y : StoreM TypeId} (h : R.Couples x y w R.Alike) :
    R.Couples (Except.ok <$> x : StoreM (Except AggregateError TypeId)) (Except.ok <$> y) w
      fun w' => RelExcept Eq (R.Alike w') := by
  intro s t hst
  obtain ⟨w', hle, hst', hab⟩ := h s t hst
  exact ⟨w', hle, hst', .ok hab⟩

theorem couples_aggregate (kind : Kind) (h : R.AllAlike w as bs) :
    R.Couples (aggregate kind as) (aggregate kind bs) w fun w' => RelExcept Eq (R.Alike w') := by
  have hrefused : R.Couples
      (pure (.error ⟨kind, as.length⟩) : StoreM (Except AggregateError TypeId))
      (pure (.error ⟨kind, bs.length⟩)) w fun w' => RelExcept Eq (R.Alike w') :=
    coupled_pure (.error (by rw [h.length_eq]))
  cases kind with
  | tuple => exact (couples_tuple h).ok
  | pointer =>
    rcases h with _ | ⟨ha, _ | ⟨_, _⟩⟩
    · exact hrefused
    · exact (couples_pointer ha).ok
    · exact hrefused
  | array =>
    rcases h with _ | ⟨ha, _ | ⟨_, _⟩⟩
    · exact hrefused
    · exact (couples_array ha none).ok
    · exact hrefused
  | function =>
    cases h with
    | nil => exact hrefused
    | @cons ret ret' params params' hret hparams =>
      have hsig : R.AlikeSig w { ret, params } { ret := ret', params := params' } :=
        ⟨hret, hparams, .nil, rfl, rfl⟩
      exact (couples_function hsig).ok
  | _ => exact hrefused

/-- A description of types that are alike builds types that are alike. -/
theorem couples_description (hR : ∀ name, .named name ∈ R.dom ∧ R.name (.named name) = .named name)
    (h : R.AllAlike w known known') (d : Description) :
    R.Couples (d.map (Request.typeAt known)).build (d.map (Request.typeAt known')).build w
      fun w' => RelExcept Eq (R.Alike w') := by
  have hpart := alike_typeAt h
  have hparts := allAlike_typeAt h
  cases d with
  | pointer target => exact (couples_pointer (hpart target)).ok
  | array elem length => exact (couples_array (hpart elem) length).ok
  | tuple items => exact (couples_tuple (hparts items)).ok
  | aggregate kind parts => exact couples_aggregate kind (hparts parts)
  | function sig =>
    have hsig : R.AlikeSig w (sig.map (Request.typeAt known)) (sig.map (Request.typeAt known')) :=
      ⟨hpart sig.ret, hparts sig.params, hparts sig.givens, rfl, rfl⟩
    exact (couples_function hsig).ok
  | namedVar name => exact (couples_namedVar (hR name).1 (hR name).2).ok
  | traitType name subject args =>
    exact (couples_traitType name (hpart subject) (hparts args)).ok
  | qualified q base => exact (couples_qualify q (hpart base)).ok

/-! ## Declaring -/

/-- Two computations on stores that declare the same answer alike, and may declare more. -/
abbrev Responds (R : Renaming) (old : Stores) (x : DeclM α) (y : DeclM β) (w : Stores)
    (Q : Stores → α → β → Prop) : Prop :=
  Coupled (R.InUnit old) x.run y.run w fun w' => RelExcept (R.AlikeRefusal w') (Q w')

/-- What is declared stays the same up to a point, and then more may be. -/
theorem Makes.bindResponds {γ δ : Type} {x : DeclM α} {y : DeclM β} {f : α → DeclM γ}
    {g : β → DeclM δ} {Q : Stores → α → β → Prop} {P : Stores → γ → δ → Prop}
    (h : R.Makes old x y ⟨w⟩ Q)
    (hf : ∀ w' a b, w ≤ w' → (∀ name, w'.1.declared? name = w.1.declared? name) → Q w' a b →
      R.Responds old (f a) (g b) w' P) : R.Responds old (x >>= f) (y >>= g) w P := by
  intro s t hst
  obtain ⟨u, hle, hst', hab⟩ := h s t hst
  rw [ExceptT.run_bind, ExceptT.run_bind, StateM.bind_apply, StateM.bind_apply]
  generalize x.run s = r at hst' hab ⊢
  generalize y.run t = r' at hst' hab ⊢
  obtain ⟨r, s'⟩ := r
  obtain ⟨r', t'⟩ := r'
  have hle' : w ≤ u.stores := Accruing.stores_le hle
  cases hab with
  | ok hab =>
    obtain ⟨w', hle₂, hst₂, hcd⟩ := hf _ _ _ hle' hle.1.declared? hab s' t' hst'
    exact ⟨w', le_trans hle' hle₂, hst₂, hcd⟩
  | error he => exact ⟨u.stores, hle', hst', .error he⟩

theorem Makes.responds {x : DeclM α} {y : DeclM β} {Q : Stores → α → β → Prop}
    (h : R.Makes old x y ⟨w⟩ Q) : R.Responds old x y w Q := by
  intro s t hst
  obtain ⟨u, hle, hst', hab⟩ := h s t hst
  exact ⟨u.stores, Accruing.stores_le hle, hst', hab⟩

/-- A type that is answered. -/
theorem Responds.some {x y : DeclM TypeId} (h : R.Responds old x y w R.Alike) :
    R.Responds old (do return some (← x)) (do return some (← y)) w fun w' => Option.Rel (R.Alike w') :=
  Coupled.bindExcept (r := R.Alike) h fun _ _ _ _ hab => coupled_pureExcept (.some hab)

/-- Nothing is answered. -/
theorem Responds.done {x y : DeclM Unit} {Q : Stores → Unit → Unit → Prop}
    (h : R.Responds old x y w Q) :
    R.Responds old (do x; return none) (do y; return none) w
      fun w' => Option.Rel (R.Alike w') :=
  Coupled.bindExcept (r := Q) h fun _ _ _ _ _ => coupled_pureExcept .none

theorem makes_namedVars (hR : ∀ name, .named name ∈ R.dom ∧ R.name (.named name) = .named name)
    (params : List Name) (u : Accruing) :
    R.Makes old (params.mapM fun p => (liftM (namedVar p) : DeclM TypeId))
      (params.mapM fun p => (liftM (namedVar p) : DeclM TypeId)) u R.AllAlike :=
  coupled_mapMExcept (e := fun u => R.AlikeRefusal u.stores)
    (S := fun u : Accruing => R.InUnit old u.stores) (r := fun _ => Eq) (fun _ _ _ _ _ h => h)
    R.stable_alike_accruing (fun _ _ _ _ hp => hp ▸ Couples.makes
      (couples_namedVar (hR _).1 (hR _).2) (builds_intern _) (builds_intern _))
    (List.forall₂_same.mpr fun _ _ => rfl)

/-- Types that are alike, and of the shape of a declaration. -/
def AlikeNamed (R : Renaming) (k : DeclKind) (name : Name) (w : Stores) (d d' : TypeId) : Prop :=
  R.Alike w d d' ∧ ∃ args, w.1.shape d = k.shape name args

/-- The type of a declaration over parameters. -/
theorem makes_declaredType (k : DeclKind) (name : Name) (u : Accruing)
    (h : R.AllAlike u.stores as bs) :
    R.Makes old (liftM (intern (k.shape name as))) (liftM (intern (k.shape name bs))) u
      (R.AlikeNamed k name) := by
  refine Couples.makes ((couples_build (like_shape k name h) (DeclKind.isVar_shape ..)
    (DeclKind.isQualified_shape ..)).and_run.mono ?_) (builds_intern _) (builds_intern _)
  rintro w' d d' - ⟨hdd, rfl, rfl, rfl⟩
  have hshape := (@intern_spec u.stores.1 (k.shape name as) (by simpa using h.left_lt)).2
  rw [TypeTable.key, if_neg (by simp), DeclKind.map_shape] at hshape
  exact ⟨hdd, _, hshape⟩

theorem responds_declare (hR : ∀ name, .named name ∈ R.dom ∧ R.name (.named name) = .named name)
    (k : DeclKind) (name : Name) (params : List Name) :
    R.Responds old (declare k name params) (declare k name params) w R.Alike := by
  refine coupled_getExcept ?_
  rintro s t ⟨⟨rfl, rfl, hlock⟩, hdecl⟩
  have hname := hdecl.declared name
  refine coupled_refuse_bind ?_ (fun _ => .redeclared name) fun hnew => ?_
  · rw [Std.HashMap.contains_eq_isSome_getElem?, Std.HashMap.contains_eq_isSome_getElem?]
    change ((w.1.declared? name).isSome = true ↔ (w.2.declared? name).isSome = true)
    generalize w.1.declared? name = x at hname
    generalize w.2.declared? name = y at hname
    cases hname <;> rfl
  have hnone : w.1.declared? name = none := by simpa [Store.declared?] using hnew
  rw [← bind_assoc]
  refine Makes.bindResponds (Q := R.AlikeNamed k name)
    (Coupled.bindExcept (r := fun u : Accruing => R.AllAlike u.stores) (makes_namedVars hR params ⟨w⟩)
      fun u' as bs _ h => makes_declaredType k name u' h) ?_
  rintro w₁ d d' hle hsame ⟨hdd, args, hshape⟩ s t ⟨⟨rfl, rfl, hlock⟩, hdecl⟩
  have hle' : w₁ ≤ (w₁.1.declare name d, w₁.2.declare name d') := ⟨le_refl w₁.1, le_refl w₁.2⟩
  exact ⟨_, hle', ⟨⟨rfl, rfl, hlock.of_count rfl rfl⟩,
    hdecl.declare ((hsame name).trans hnone) hdd hshape⟩, .ok (hdd.of_le hle')⟩

/-- A trait is declared, which is no product or sum. -/
theorem DeclareAlike.declareTrait {d d' : TypeId} (h : R.DeclareAlike old w)
    (hdd : R.AlikeOf .trait w d d') : R.DeclareAlike old (w.1.declareTrait d, w.2.declareTrait d') := by
  have hle : w ≤ (w.1.declareTrait d, w.2.declareTrait d') := ⟨le_refl w.1, le_refl w.2⟩
  have hbodies := h.bodies
  have hinstances := h.instances
  obtain ⟨vs, vs', hvs, hvs', halike⟩ := h.listed
  exact {
    left := h.left.declareTrait hdd.kind
    right := h.right.declareTrait (hdd.kind_eq.trans hdd.kind)
    declared := fun name => rel_option_mono (h.declared name) fun _ _ h => h.of_le hle
    bodies := hbodies.mono (fun _ _ h => h.of_le hle) fun _ _ h => h.of_le hle
    instances := hinstances.mono (fun _ _ h => h.of_le hle) fun _ _ h => h.of_le hle
    listed := ⟨vs, vs', hvs, hvs', halike.of_le hle⟩ }

/-- The type of a trait over parameters, of which the first is the subject. -/
def traitOver (name : Name) (params : List Name) : StoreM TypeId := do
  let vars ← params.mapM namedVar
  traitType name (vars.headD TypeId.unit) vars.tail

theorem couples_traitOver (hR : ∀ name, .named name ∈ R.dom ∧ R.name (.named name) = .named name)
    (name : Name) (params : List Name) :
    R.Couples (traitOver name params) (traitOver name params) w (R.AlikeOf .trait) := by
  have hvars : R.Couples (params.mapM namedVar) (params.mapM namedVar) w
      fun w' as bs => as.length = params.length ∧ R.AllAlike w' as bs :=
    coupled_mapM (r := fun _ => Eq) (fun _ _ _ _ _ h => h) R.stable_alike
      (fun _ _ _ _ hp => hp ▸ couples_namedVar (hR _).1 (hR _).2) (List.forall₂_same.mpr fun _ _ => rfl)
  refine hvars.bind fun w₁ as bs _ ⟨_, h⟩ => ?_
  have hsubject : R.Alike w₁ (as.headD TypeId.unit) (bs.headD TypeId.unit) := by
    cases h with
    | nil => exact R.alike_prim w₁ .unit
    | cons h _ => exact h
  have htail : R.AllAlike w₁ as.tail bs.tail := by
    cases h with
    | nil => exact .nil
    | cons _ h => exact h
  refine (couples_traitType name hsubject htail).and_run.mono ?_
  rintro w' d d' - ⟨hdd, rfl, rfl, rfl⟩
  have hshape := (@intern_spec w₁.1 (.trait name (as.headD TypeId.unit) as.tail)
    (List.forall_mem_cons.mpr ⟨hsubject.left_lt, htail.left_lt⟩)).2
  exact ⟨hdd, congrArg Shape.kind hshape⟩

theorem responds_declareTrait (hR : ∀ name, .named name ∈ R.dom ∧ R.name (.named name) = .named name)
    (name : Name) (params : List Name) :
    R.Responds old (liftM (StoreM.declareTrait name params)) (liftM (StoreM.declareTrait name params)) w
      R.Alike := by
  have hbuilds : (traitOver name params).Builds :=
    (builds_mapM (fun _ => builds_intern _) params).bind fun _ => builds_intern _
  intro s t hst
  obtain ⟨⟨w'⟩, hle, ⟨⟨hl, hr, hlock⟩, hdecl⟩, hdd⟩ :=
    Couples.makes (u := ⟨w⟩) (couples_traitOver hR name params) hbuilds hbuilds s t hst
  obtain rfl : w' = (_, _) := Prod.ext hl hr
  cases hdd with
  | ok hdd =>
    have hle' : ((traitOver name params s).2, (traitOver name params t).2) ≤
        ((StoreM.declareTrait name params s).2, (StoreM.declareTrait name params t).2) :=
      ⟨le_refl (traitOver name params s).2, le_refl (traitOver name params t).2⟩
    exact ⟨_, le_trans (Accruing.stores_le hle) hle', ⟨⟨rfl, rfl, hlock.of_count rfl rfl⟩,
      hdecl.declareTrait hdd⟩, .ok (hdd.toAlike.of_le hle')⟩

/-! ## Requests side by side -/

/-- Requests that speak of types that are alike are answered alike. -/
theorem responds_ask (hR : ∀ name, .named name ∈ R.dom ∧ R.name (.named name) = .named name)
    (hknown : R.AllAlike w known known') {req : Request} (hspares : req.SparesTraits known w.1) :
    R.Responds old (req.ask known) (req.ask known') w fun w' => Option.Rel (R.Alike w') := by
  have hpart := alike_typeAt hknown
  have hparts := allAlike_typeAt hknown
  cases req with
  | construct description =>
    refine Coupled.bindExcept (r := fun w' => RelExcept Eq (R.Alike w')) (Makes.responds
      (Couples.makes (couples_description hR hknown description) (Description.builds_build _)
        (Description.builds_build _))) fun w' x y _ hxy => coupled_pureExcept ?_
    cases hxy with
    | ok hab => exact .some hab
    | error _ => exact .none
  | freshVar =>
    exact (Makes.responds (Couples.makes (R.couples_freshVar w) builds_freshVar builds_freshVar)).some
  | substituteAll mapping ty =>
    have hmapping : R.AlikePairs w
        (mapping.map (Prod.map (Request.typeAt known) (Request.typeAt known)))
        (mapping.map (Prod.map (Request.typeAt known') (Request.typeAt known'))) := by
      rw [AlikePairs, List.forall₂_map_left_iff, List.forall₂_map_right_iff, List.forall₂_same]
      exact fun p _ => ⟨hpart p.1, hpart p.2⟩
    exact (Makes.responds (Couples.makes (couples_replaceAll hmapping (hpart ty))
      (builds_substituteAll _ _) (builds_substituteAll _ _))).some
  | instantiateFresh ty =>
    exact (Makes.responds (Couples.makes (couples_copy (hpart ty)) (builds_instantiateFresh _)
      (builds_instantiateFresh _))).some
  | declare kind name params => exact (responds_declare hR kind name params).some
  | declareTrait name params => exact (responds_declareTrait hR name params).some
  | defineProduct decl fields names =>
    exact (Makes.responds (makes_defineProduct (hpart decl) (hparts fields))).done
  | defineSum sum tags => exact (Makes.responds (makes_defineSum (hpart sum) (hparts tags))).done
  | instantiate ty args =>
    exact (Makes.responds (makes_instantiate (hpart ty) hspares (hparts args))).some
  | instantiateAtFresh ty => exact (Makes.responds (makes_instantiateAtFresh (hpart ty) hspares)).some
  | materialize ty => exact (Makes.responds (makes_materialize (hpart ty) hspares)).some

/-- The answers are alike to the end, and then the same is declared.  What is known grows with each
answer. -/
theorem responds_askAll (hR : ∀ name, .named name ∈ R.dom ∧ R.name (.named name) = .named name)
    {reqs : List Request} {s t : Store} (h : R.InUnit old w s t) (hknown : R.AllAlike w known known')
    (hspares : Request.AllSpareTraits reqs known s) :
    ∃ w', w ≤ w' ∧
      R.InUnit old w' (Request.askAll reqs known s).2 (Request.askAll reqs known' t).2 ∧
      List.Forall₂ (R.AlikeAnswer w') (Request.askAll reqs known s).1
        (Request.askAll reqs known' t).1 := by
  induction reqs generalizing w s t known known' with
  | nil => exact ⟨w, le_rfl, h, .nil⟩
  | cons req reqs ih =>
    obtain ⟨hspares, hrest⟩ := hspares
    obtain ⟨w₁, hle₁, h₁, hanswer⟩ := responds_ask hR hknown (h.left ▸ hspares) s t h
    obtain ⟨w₂, hle₂, h₂, hanswers⟩ :=
      ih h₁ (AllAlike.learn (AllAlike.of_le hknown hle₁) hanswer) hrest
    exact ⟨w₂, le_trans hle₁ hle₂, h₂, .cons (AlikeAnswer.of_le hanswer hle₂) hanswers⟩

end Renaming

/-! ## Forgetting -/

namespace Operation

/-- In every store that operations lead to, forgetting what is declared keeps all types, and leaves
nothing behind but traits.  From then on the store answers every sequence of requests like any store
in which nothing is declared, up to the numbers of types and of fresh variables; and in the end the
two declare the same under the same names, with bodies and instances that are alike, and with
instances that were made in the same order. -/
theorem clearDeclared_forgets (ops : List Operation) (hops : Along ArgsWithin ops .new) :
    let st := runAll ops .new
    let cleared := st.clearDeclared
    (cleared.size = st.size ∧ ∀ ty, cleared.shape ty = st.shape ty ∧
      cleared.flagBits ty = st.flagBits ty ∧ cleared.weight ty = st.weight ty) ∧
    (∀ name, cleared.declared? name = none) ∧
    (∀ ty : TypeId, cleared.nominals.bodies[ty]? = none) ∧
    (∀ ty d, cleared.declOf? ty = some d → cleared.kind ty = .trait ∧ cleared.kind d = .trait) ∧
    (∀ (d : TypeId) (args : List TypeId) (v : TypeId), cleared.nominals.variants[(d, args)]? = some v →
      cleared.kind d = .trait ∧ cleared.kind v = .trait) ∧
    (∀ v ∈ cleared.variants, cleared.kind v = .trait) ∧
    ∀ past, Along ArgsWithin past .new → (∀ name, (runAll past .new).declared? name = none) →
      let start : Stores := (cleared, runAll past .new)
      (∃ R : Renaming, R.Renumbers start) ∧
      ∀ R : Renaming, R.Renumbers start → ∀ known known', R.AllAlike start known known' →
        ∀ reqs, Request.AllSpareTraits reqs known cleared →
          let run := Request.askAll reqs known start.1
          let run' := Request.askAll reqs known' start.2
          List.Forall₂ (R.AlikeAnswer (run.2, run'.2)) run.1 run'.1 ∧
            R.DeclareAlike start (run.2, run'.2) := by
  intro st cleared
  have hcleared : cleared.Anchored := (anchored_runAll anchored_new hops).clearDeclared
  have hnone : ∀ name, cleared.declared? name = none := declared?_clearDeclared st
  refine ⟨⟨rfl, fun _ => ⟨rfl, rfl, rfl⟩⟩, hnone, hcleared.bodies_of_none hnone,
    fun _ _ => hcleared.declOf?_of_none hnone, fun _ _ _ => hcleared.variants_of_none hnone,
    fun _ => hcleared.listed_of_none hnone, ?_⟩
  intro past hpast hnone' start
  refine ⟨⟨_, Renaming.renumbers_onward start⟩, ?_⟩
  intro R hR known known' hknown reqs hspares run run'
  have hdecl : R.DeclareAlike start start :=
    R.declareAlike_of_none hcleared (anchored_runAll anchored_new hpast) hnone hnone'
  obtain ⟨w, -, ⟨⟨hl, hr, -⟩, hdecl'⟩, hanswers⟩ :=
    Renaming.responds_askAll hR.named ⟨⟨rfl, rfl, hR.lockstep⟩, hdecl⟩ hknown hspares
  obtain rfl : w = (run.2, run'.2) := Prod.ext hl hr
  exact ⟨hanswers, hdecl'⟩

/-- A unit that declares boxes, with a field, and makes one at a type. -/
def boxUnit : List Operation :=
  [.construct (.namedVar "t"), .declare .product "Box" ["t"], .defineProduct 19 [18] [some "value"],
    .instantiate 19 [TypeId.i32]]

/-- What the next unit asks for, which has other boxes. -/
def boxRequests : List Request :=
  [.declare .product "Box" ["t"], .defineProduct 1 [0] [none], .instantiate 1 [0]]

theorem allSpareTraits_boxRequests {st : Store} (hnone : st.declared? "Box" = none) :
    Request.AllSpareTraits boxRequests [TypeId.i32] st := by
  have hdeclare : Gives (DeclM.declare .product "Box" ["t"]) st (fun _ => False)
      fun d st' => d < st'.size ∧ st'.kind d = .product :=
    DeclM.gives_declare_of .product "Box" ["t"] (fun h => h hnone)
      fun st₁ d vars _ _ _ hlt hshape _ => ⟨hlt, congrArg Shape.kind hshape⟩
  obtain ⟨d, st₁, hrun, hlt, hkind⟩ := hdeclare.exists_ok fun _ hf => hf
  have hask : ((Request.declare .product "Box" ["t"]).ask [TypeId.i32]).run st =
      (.ok (some d), st₁) := by
    show ((DeclM.declare .product "Box" ["t"] >>= fun ty => pure (some ty) :
      DeclM (Option TypeId))).run st = _
    rw [ExceptT.run_bind, StateM.bind_apply, hrun]
    rfl
  have hle := (regular_defineProduct d [TypeId.i32] [none] st₁).le
  have hdefine : ((Request.defineProduct 1 [0] [none]).ask [TypeId.i32, d]).run st₁ =
      (((DeclM.defineProduct d [TypeId.i32] [none]).run st₁).1.map fun _ => none,
        ((DeclM.defineProduct d [TypeId.i32] [none]).run st₁).2) := by
    show ((DeclM.defineProduct d [TypeId.i32] [none] >>= fun _ => pure none :
      DeclM (Option TypeId))).run st₁ = _
    rw [ExceptT.run_bind, StateM.bind_apply]
    rcases (DeclM.defineProduct d [TypeId.i32] [none]).run st₁ with ⟨_ | _, _⟩ <;> rfl
  refine ⟨trivial, ?_⟩
  rw [hask]
  refine ⟨trivial, ?_, trivial⟩
  change Store.kind (((Request.defineProduct 1 [0] [none]).ask [TypeId.i32, d]).run st₁).2
    (Request.typeAt (Request.learn [TypeId.i32, d]
      (((Request.defineProduct 1 [0] [none]).ask [TypeId.i32, d]).run st₁).1) 1) ≠ .trait
  rw [hdefine]
  have hplace : ∀ r : Except DeclError Unit,
      Request.typeAt (Request.learn [TypeId.i32, d] (r.map fun _ => none)) 1 = d := fun r => by
    cases r <;> rfl
  rw [hplace, kind_of_le hle hlt, hkind]
  exact nofun

/-- After the unit with the boxes, a unit with other boxes is answered as in a new store. -/
theorem clearDeclared_forgets_box :
    let cleared := (runAll boxUnit .new).clearDeclared
    ∃ R : Renaming, R.Renumbers (cleared, .new) ∧
      let run := Request.askAll boxRequests [TypeId.i32] cleared
      let run' := Request.askAll boxRequests [TypeId.i32] .new
      List.Forall₂ (R.AlikeAnswer (run.2, run'.2)) run.1 run'.1 ∧
        R.DeclareAlike (cleared, .new) (run.2, run'.2) := by
  intro cleared
  have hargs : ∀ (st : Store), ∀ a ∈ [TypeId.i32], a < st.size := fun _ =>
    List.forall_mem_singleton.mpr (lt_size_of_prim .i32)
  obtain ⟨-, hnone, -, -, -, -, hnext⟩ :=
    clearDeclared_forgets boxUnit ⟨trivial, trivial, trivial, hargs _, trivial⟩
  obtain ⟨⟨R, hR⟩, hanswers⟩ := hnext [] trivial fun name => declared?_new name
  exact ⟨R, hR, hanswers R hR _ _ (.cons (R.alike_prim _ .i32) .nil) boxRequests
    (allSpareTraits_boxRequests (hnone "Box"))⟩

end Operation

end ConstraintTyping
