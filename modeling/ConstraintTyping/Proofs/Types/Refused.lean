import ConstraintTyping.Proofs.Types.Answered
import ConstraintTyping.Proofs.Types.Monomorphic

/-!
# What a refusal leaves behind

Declaring, defining a product and asking for instances either succeed or leave the store as it was.
For requests this needs that none of them is refused on the way, after something has been entered, and
so that all bodies fit.  Giving a sum its tags is different: the tags before the one that is refused
stay tied to the sum, which has no tags then.
-/

namespace ConstraintTyping

open Store StoreM DeclM

variable {st st' : Store} {name : Name} {d ty v tag sum parent : TypeId} {k : DeclKind}
  {params args parts tags fields : List TypeId} {α : Type}

namespace DeclM

/-- The error with which a computation is refused, if it is. -/
def refusal? (act : DeclM α) (st : Store) : Option DeclError :=
  match (act.run st).1 with
  | .ok _ => none
  | .error e => some e

theorem end_of_refused {act : DeclM α} {E : Store → Prop} {Q : α → Store → Prop}
    (h : Gives act st E Q) (hrefused : act.refusal? st ≠ none) : E (act.run st).2 := by
  rcases h with ⟨a, st', hrun, -⟩ | ⟨e, st', hrun, hE⟩
  · rw [refusal?, hrun] at hrefused
    exact absurd rfl hrefused
  · rw [hrun]
    exact hE

theorem refused_of_gives {act : DeclM α} {E : Store → Prop} (h : Gives act st E fun _ _ => False) :
    act.refusal? st ≠ none ∧ E (act.run st).2 := by
  rcases h with ⟨_, _, _, hf⟩ | ⟨e, st', hrun, hE⟩
  · exact hf.elim
  · rw [refusal?, hrun]
    exact ⟨Option.some_ne_none e, hE⟩

/-- A computation that is refused without a trace, or ends in a store that fits. -/
abbrev Atomic (act : DeclM α) (st : Store) : Prop :=
  Gives act st (fun st' => st' = st) fun _ st' => st'.Fitting

/-- There is no declaration behind a type that takes the arguments. -/
abbrev Unanswerable (st : Store) (ty : TypeId) (args : List TypeId) : Prop :=
  ∀ d, st.declOf? ty = some d → (st.nominalArgs d).length ≠ args.length

theorem gives_findOr_unanswerable {make : Store → TypeId → DeclM TypeId} {E : Store → Prop}
    {Q : TypeId → Store → Prop} (h : Unanswerable st ty args) (hE : E st) :
    Gives (findOr ty args make) st E Q := by
  refine Gives.bind (Q := fun _ _ => False) (gives_get_bind ?_) fun _ _ hf => hf.elim
  cases hd : st.declOf? ty with
  | none => exact gives_throw hE
  | some d =>
    dsimp only
    rw [if_pos (h d hd)]
    exact gives_throw hE

end DeclM

namespace Store.Fitting

/-! ## Traits -/

/-- What is behind a type has a link itself. -/
theorem isSome_declOf (h : st.Fitting) (hd : st.declOf? ty = some d) :
    (st.nominals.declOf[d]?).isSome = true := by
  rcases h.anchored.madeFrom_of_declOf? hd with ⟨htrait, -⟩ | ⟨name, k, params, _, hdecl, -⟩
  · -- a trait is not looked up by name
    rw [Store.declOf?] at hd
    split at hd
    · next hlink =>
      obtain rfl := Option.some.inj hd
      exact (h.links hlink).1
    · rw [Store.kind] at htrait
      split at hd <;> next hshape => first | cases hd | (rw [hshape] at htrait; cases htrait)
  · rw [(h.anchored.declares hdecl.declared).1]
    rfl

theorem exists_declOf?_declOf? (h : st.Fitting) (hd : st.declOf? ty = some d) :
    ∃ d', st.declOf? d = some d' ∧ (st.nominalArgs d').length = (st.nominalArgs d).length ∧
      (st.kind d = .trait → st.kind d' = .trait) := by
  obtain ⟨d', hd'⟩ := Option.isSome_iff_exists.mp (h.isSome_declOf hd)
  exact ⟨d', by rw [Store.declOf?, hd'], (h.links hd').2.symm, (h.anchored.links hd').trait⟩

/-- An instance of a trait is entered. -/
theorem gives_enterTrait (h : st.Fitting) (hargs : ∀ a ∈ args, a < st.size)
    (hd : st.declOf? ty = some d) (htrait : st.kind d = .trait)
    (hlen : (st.nominalArgs d).length = args.length) :
    Gives (do
        let v ← (StoreM.intern (variantShape (st.shape d) args) : StoreM TypeId)
        modify (enterVariant d args v)
        return v : DeclM TypeId) st (fun _ => False) fun _ st' => st'.Fitting := by
  -- the subject of the trait is replaced by the first argument
  obtain ⟨name, subject, rest, hshape⟩ : ∃ name subject rest,
      st.shape d = .trait name subject rest := by
    rw [Store.kind] at htrait
    cases hs : st.shape d <;> rw [hs] at htrait <;> cases htrait
    exact ⟨_, _, _, rfl⟩
  obtain ⟨a, as, rfl⟩ : ∃ a as, args = a :: as := by
    rw [Store.nominalArgs, hshape] at hlen
    exact List.exists_cons_of_length_eq_add_one hlen.symm
  have hle := intern_le (.trait name a as) st
  have hnom := intern_nominals (.trait name a as) st
  have hv := (@intern_spec st (.trait name a as) hargs).2
  rw [TypeTable.key, if_neg (by simp [Shape.isQualified])] at hv
  have hdlt := lt_size_of_kind_trait htrait
  have hlink := h.isSome_declOf hd
  rw [hshape]
  show Gives (do
        let v ← (StoreM.intern (.trait name a as) : StoreM TypeId)
        modify (enterVariant d (a :: as) v)
        return v : DeclM TypeId) st (fun _ => False) fun _ st' => st'.Fitting
  refine Gives.bind (Q := fun v st' => (v, st') = StoreM.intern (.trait name a as) st) (gives_lift rfl)
    fun v st₁ hrun => gives_modify_bind (gives_pure ?_)
  rw [← hrun] at hle hnom hv
  dsimp only at hle hnom hv
  have htrait₁ : st₁.kind d = .trait := (kind_of_le hle hdlt).trans htrait
  have hkind : st₁.kind v = .trait := by
    rw [Store.kind, hv, Shape.kind_map]
    rfl
  have hfit := h.of_nominals hle hnom
  refine hfit.enterTrait htrait₁ hkind (by rw [hnom]; exact hlink) ?_
    (hfit.anchored.enterVariant (.inl ⟨hkind, htrait₁⟩) _)
  rw [Store.nominalArgs, hv, Store.nominalArgs, shape_of_le hle hdlt]
  refine Eq.trans ?_ hlen.symm
  simp [Shape.nominalArgs, Shape.map]

/-! ## Requests -/

theorem gives_instantiateWithin_trait (depth : Nat) (h : st.Fitting)
    (hargs : ∀ a ∈ args, a < st.size) (hd : st.declOf? ty = some d) (htrait : st.kind d = .trait)
    (hlen : (st.nominalArgs d).length = args.length) :
    Gives (instantiateWithin (depth + 1) ty args) st (fun _ => False) fun _ st' => st'.Fitting := by
  rw [instantiateWithin_succ]
  refine gives_findOr hd hlen (fun _ => h) (fun _ _ => h) fun _ _ => ?_
  obtain ⟨d', hd', hlen', htrait'⟩ := h.exists_declOf?_declOf? hd
  rw [htrait]
  refine Gives.bind (Q := fun parts st' => parts = [] ∧ st = st') (gives_pure ⟨rfl, rfl⟩) ?_
  rintro _ _ ⟨rfl, rfl⟩
  dsimp only
  rw [variantWith_eq]
  refine gives_findOr hd' (hlen'.trans hlen) (fun _ => h) (fun _ _ => h) fun _ _ => ?_
  rw [htrait' htrait]
  exact h.gives_enterTrait hargs hd' (htrait' htrait) (hlen'.trans hlen)

/-- A request is refused at once, or it is answered. -/
theorem gives_instantiate (h : st.Fitting) (hargs : ∀ a ∈ args, a < st.size) :
    Gives (instantiate ty args) st (fun st' => st' = st ∧ Unanswerable st ty args)
      fun _ st' => st'.Fitting := by
  refine gives_get_bind ?_
  by_cases hrefused : Unanswerable st ty args
  · exact gives_findOr_unanswerable hrefused ⟨rfl, hrefused⟩
  obtain ⟨d, hd, hlen⟩ : ∃ d, st.declOf? ty = some d ∧ (st.nominalArgs d).length = args.length := by
    simpa [Unanswerable] using hrefused
  rcases h.anchored.madeFrom_of_declOf? hd with ⟨-, htrait⟩ | ⟨name, k, params, as, hdecl, hty⟩
  · exact (h.gives_instantiateWithin_trait _ hargs hd htrait hlen).mono (fun _ hf => hf.elim)
      fun _ _ h' => h'
  · refine (gives_instantiateWithin_guided _ (Guides.refl h hargs) hty hdecl ?_
      (h.anchored.suffices_instantiationDepth k args)).mono (fun _ hf => hf.elim)
        fun _ _ hv => hv.guides.fitting
    rw [← hlen, hdecl.nominalArgs]

theorem atomic_variant (h : st.Fitting) (hparts : ∀ p ∈ parts, p < st.size)
    (hargs : ∀ a ∈ args, a < st.size)
    (htags : st.kind parent = .sum → ∀ p ∈ parts, st.Takes .product args.length p) :
    Atomic (variant parent parts args) st := by
  refine gives_get_bind ?_
  rw [variantWith_eq]
  by_cases hrefused : Unanswerable st parent args
  · exact gives_findOr_unanswerable hrefused rfl
  obtain ⟨d, hd, hlen⟩ : ∃ d, st.declOf? parent = some d ∧
      (st.nominalArgs d).length = args.length := by
    simpa [Unanswerable] using hrefused
  refine gives_findOr hd hlen (fun _ => h) (fun _ _ => h) fun hne hnew => ?_
  rcases h.anchored.madeFrom_of_declOf? hd with ⟨-, htrait⟩ | ⟨name, k, params, as, hdecl, hparent⟩
  · rw [htrait]
    exact (h.gives_enterTrait hargs hd htrait hlen).mono (fun _ hf => hf.elim) fun _ _ h' => h'
  rw [hdecl.nominalArgs] at hlen hne
  rw [hdecl.kind, hdecl.shape, DeclKind.variantShape_shape]
  cases k with
  | product =>
    refine gives_enterThen ?_
    have hentered := h.enterWith hdecl hargs hne hlen hnew
      (b := .product (productOver st d parts)) (.product hparts fun sum hsum => nomatch hsum)
    have haccrues := accrues_enterWith (DeclKind.product.shape name args)
      (.product (productOver st d parts)) hnew
    have hcard := card_pending_enterWith (DeclKind.product.shape name args)
      (.product (productOver st d parts)) hdecl.declared hnew
    have hv := isInstance_enterWith d .product name (.product (productOver st d parts)) hargs
    generalize DeclM.enterWith d args (DeclKind.product.shape name args) _ st = v
      at hentered haccrues hcard hv ⊢
    have hguides := Guides.refl hentered fun a ha => lt_size_of_le haccrues.le (hargs a ha)
    refine (gives_tieTo hguides (hlen ▸ hv.takes (haccrues.declaresMore.declares hdecl)) ?_ ?_).mono
      (fun _ hf => hf.elim) fun _ _ h' => h'.2.1.fitting
    · intro sum hsum
      rw [← hlen]
      exact (h.parent_takes hdecl sum hsum).of_more haccrues.declaresMore
    · intro sum sumName as' d' params' hsum hd' hlen'
      refine gives_instantiateWithin_guided _ hguides hsum hd' hlen' ?_
      have hdepth := h.anchored.suffices_instantiationDepth .product args
      simp only [leastDepth] at hdepth ⊢
      omega
  | sum =>
    refine gives_enterThen (gives_modify_bind (gives_pure ?_))
    have htakes := htags (by rw [Store.kind, hparent, DeclKind.kind_shape]; rfl)
    have hentered := h.enterWith hdecl hargs hne hlen hnew (b := .sum parts) (.sum htakes)
    have haccrues := accrues_enterWith (DeclKind.sum.shape name args) (.sum parts) hnew
    have hv := isInstance_enterWith d .sum name (.sum parts) hargs
    exact hentered.bindParents (fun part hpart => (htakes part hpart).of_more haccrues.declaresMore)
      (hlen ▸ hv.takes (haccrues.declaresMore.declares hdecl))

theorem atomic_instantiateAtFresh (h : st.Fitting) : Atomic (instantiateAtFresh ty) st := by
  refine gives_get_bind ?_
  cases hd : st.declOf? ty with
  | none => exact gives_throw rfl
  | some decl =>
    refine (gives_freshVars (st.nominalArgs decl) st).bind ?_
    rintro args st₁ ⟨⟨hle, hnom⟩, hnew, hlen⟩
    have hargs : ∀ a ∈ args, a < st₁.size := fun a ha => by
      obtain ⟨n, hn⟩ := hnew.fresh a ha
      exact lt_size_of_shape_var hn
    refine ((h.of_nominals hle hnom).gives_instantiate hargs).mono ?_ fun _ _ h' => h'
    -- the variables are as many as the declaration takes
    rintro _ ⟨-, hrefused⟩
    obtain ⟨d', hd'⟩ := Option.isSome_iff_exists.mp (h.isSome_declOf hd)
    obtain ⟨_, hself⟩ := Option.isSome_iff_exists.mp (h.links hd').1
    refine absurd ?_ (hrefused d' (by rw [Store.declOf?, hnom, hd']))
    rw [Store.nominalArgs, shape_of_le hle (h.anchored.links hself).lt_size]
    exact (h.links hd').2.symm.trans hlen.symm

theorem atomic_materialize (h : st.Fitting) : Atomic (materialize ty) st := by
  refine gives_get_bind ?_
  split
  · exact gives_pure h
  · exact (h.gives_instantiate fun a => lt_size_of_mem_nominalArgs).mono (fun _ hE => hE.1)
      fun _ _ h' => h'

/-! ## Declaring and defining -/

theorem atomic_declare (h : st.Fitting) (kind : DeclKind) (name : Name) (params : List Name) :
    Atomic (DeclM.declare kind name params) st := by
  refine gives_declare_of kind name params (fun _ => rfl)
    fun st₁ d vars hle hnom hnew _ hshape hnames => ?_
  have hnew₁ : st₁.declared? name = none := by
    rw [Store.declared?, hnom]
    exact hnew
  exact (h.of_nominals hle hnom).declare hnew₁ hshape hnames.isVar

theorem atomic_defineProduct (h : st.Fitting) (hfields : ∀ f ∈ fields, f < st.size)
    (names : List (Option Name)) : Atomic (defineProduct d fields names) st := by
  refine gives_get_bind ?_
  refine gives_refuse_bind (fun _ => rfl) fun hdecl => ?_
  refine gives_refuse_bind (fun _ => rfl) fun _ => gives_modify ?_
  rw [Bool.or_eq_true, not_or] at hdecl
  exact h.setBody (k := .product) (by simpa using hdecl.2) (by simpa [DeclKind.kind] using hdecl.1)
    (.product hfields fun sum hsum => nomatch hsum)

/-- Tags are tied to a sum up to the first that is refused. -/
theorem gives_bindTags (h : st.Fitting) (hsum : st.Takes .sum (st.nominalArgs sum).length sum)
    (tags : List TypeId) : Gives (tags.forM (bindTag sum)) st
      (fun st' => st'.Fitting ∧ ∃ before tag after, tags = before ++ tag :: after ∧
        (∀ t ∈ before, (st.productBody? t).isSome = true) ∧ st' = st.bindParents sum before)
      fun _ st' => st'.Fitting ∧ SameButBodies st st' ∧
        ∀ tag ∈ tags, st.Takes .product (st.nominalArgs sum).length tag := by
  induction tags generalizing st with
  | nil => exact gives_pure ⟨h, ⟨rfl, rfl, rfl, rfl⟩, nofun⟩
  | cons tag tags ih =>
    have hrefused : st.Fitting ∧ ∃ before tag' after, tag :: tags = before ++ tag' :: after ∧
        (∀ t ∈ before, (st.productBody? t).isSome = true) ∧ st = st.bindParents sum before :=
      ⟨h, [], tag, tags, rfl, nofun, rfl⟩
    have htag : Gives (bindTag sum tag) st (fun st' => st' = st) fun _ st' =>
        st' = st.bindParent tag sum ∧ (st.productBody? tag).isSome = true ∧
          st.Takes .product (st.nominalArgs sum).length tag := by
      refine gives_get_bind ?_
      refine gives_refuse_bind (fun _ => rfl) fun hkind => ?_
      refine gives_refuse_bind (fun _ => rfl) fun hargs => ?_
      refine gives_refuse_bind (fun _ => rfl) fun hbody => gives_modify ⟨rfl, ?_⟩
      rw [not_not] at hkind hargs
      obtain ⟨body, hbody⟩ : ∃ body, st.productBody? tag = some body := by
        simpa [Option.ne_none_iff_exists'] using hbody
      refine ⟨by rw [hbody]; rfl, ?_⟩
      rw [← hargs]
      refine h.takes hkind (h.anchored.bodies ?_).2
      rw [productBody?_eq_some.mp hbody]
      rfl
    refine (htag.mono (fun st' hst' => hst' ▸ hrefused) fun _ _ h' => h').bind ?_
    rintro _ _ ⟨rfl, hbody, htakes⟩
    have hsame := sameButBodies_bindParent st tag sum
    have hargs : (st.bindParent tag sum).nominalArgs = st.nominalArgs := funext fun ty => by
      rw [Store.nominalArgs, Store.nominalArgs, hsame.shape]
    have hsum₁ := hsum.of_more hsame.declaresMore
    rw [← hargs] at hsum₁
    refine (ih (h.bindParent htakes hsum) hsum₁).mono ?_ ?_
    · rintro _ ⟨hfit, before, tag', after, rfl, hbefore, rfl⟩
      refine ⟨hfit, tag :: before, tag', after, rfl, List.forall_mem_cons.mpr ⟨hbody, ?_⟩, rfl⟩
      intro t ht
      obtain ⟨body, hbody⟩ := Option.isSome_iff_exists.mp (hbefore t ht)
      obtain ⟨old, hold, -⟩ := productBody?_bindParent hbody
      rw [hold]
      rfl
    · rintro _ st' ⟨hfit, hsame', htakes'⟩
      refine ⟨hfit, hsame.trans hsame', List.forall_mem_cons.mpr ⟨htakes, fun t ht => ?_⟩⟩
      obtain ⟨name, args, d, params, hshape, hd, hlen⟩ := htakes' t ht
      exact ⟨name, args, d, params, (hsame.shape t).symm.trans hshape, hsame.declares.mp hd,
        by rw [hlen, hargs]⟩

/-- Giving a sum its tags is refused at once, or at a tag, when those before it are tied. -/
theorem gives_defineSum (h : st.Fitting) (tags : List TypeId) : Gives (defineSum sum tags) st
    (fun st' => st'.Fitting ∧ (st' = st ∨ ∃ before tag after, tags = before ++ tag :: after ∧
      (∀ t ∈ before, (st.productBody? t).isSome = true) ∧ st' = st.bindParents sum before))
    fun _ st' => st'.Fitting := by
  refine gives_get_bind ?_
  refine gives_refuse_bind (fun _ => ⟨h, .inl rfl⟩) fun hdecl => ?_
  refine gives_refuse_bind (fun _ => ⟨h, .inl rfl⟩) fun _ => ?_
  rw [Bool.or_eq_true, not_or] at hdecl
  have hself : st.isDeclaration sum = true := by simpa using hdecl.2
  have hkind : st.kind sum = DeclKind.sum.kind := by simpa [DeclKind.kind] using hdecl.1
  have hsum := h.takes hkind (by rw [eq_of_beq hself]; rfl)
  refine ((h.gives_bindTags hsum tags).mono (fun _ hE => ⟨hE.1, .inr hE.2⟩) fun _ _ h' => h').bind ?_
  rintro _ st₁ ⟨hfit, hsame, htakes⟩
  refine gives_modify (hfit.setBody (k := .sum) ?_ ?_ (.sum fun tag htag => ?_))
  · rw [Store.isDeclaration, hsame.declOf]
    exact hself
  · rw [Store.kind, hsame.shape]
    exact hkind
  · rw [Store.nominalArgs, hsame.shape]
    exact (htakes tag htag).of_more hsame.declaresMore

end Store.Fitting

/-! ## Operations -/

namespace Store

theorem variants_bindParents (st : Store) (sum : TypeId) (tags : List TypeId) :
    (st.bindParents sum tags).variants = st.variants := by
  induction tags generalizing st with
  | nil => rfl
  | cons tag tags ih =>
    rw [bindParents_cons, ih]
    unfold Store.bindParent
    split <;> rfl

end Store

namespace Operation

/-- What an operation is given fits: instances are asked for at types of the store, bodies are made of
types of the store, and the parts of a new instance of a sum are products that take as many
arguments. -/
def Suitable (st : Store) : Operation → Prop
  | defineProduct _ fields _ => ∀ f ∈ fields, f < st.size
  | variant parent parts args => (∀ p ∈ parts, p < st.size) ∧ (∀ a ∈ args, a < st.size) ∧
      (st.kind parent = .sum → ∀ p ∈ parts, st.Takes .product args.length p)
  | instantiate _ args => ∀ a ∈ args, a < st.size
  | _ => True

/-- The error with which an operation is refused, if it is. -/
def refusal? (st : Store) : Operation → Option DeclError
  | declare kind name params => (DeclM.declare kind name params).refusal? st
  | defineProduct decl fields names => (DeclM.defineProduct decl fields names).refusal? st
  | defineSum sum tags => (DeclM.defineSum sum tags).refusal? st
  | variant parent parts args => (DeclM.variant parent parts args).refusal? st
  | instantiate ty args => (DeclM.instantiate ty args).refusal? st
  | instantiateAtFresh ty => (DeclM.instantiateAtFresh ty).refusal? st
  | materialize ty => (DeclM.materialize ty).refusal? st
  | _ => none

variable {op : Operation} {ops : List Operation}

theorem fitting_run (h : st.Fitting) (hop : op.Suitable st) : (op.run st).Fitting := by
  have hbuilt : ∀ {op : Operation}, op.Builds → (op.run st).Fitting := fun hbuilds =>
    h.of_nominals (hbuilds.run st).1 (hbuilds.run st).2
  have hatomic : ∀ {α : Type} {act : DeclM α}, Atomic act st → (act.run st).2.Fitting := fun hact =>
    (hact.mono (fun _ hE => hE ▸ h) fun _ _ h' => h').end fun _ _ h' => h'
  cases op with
  | construct description => exact hbuilt (.construct description)
  | freshVar => exact hbuilt .freshVar
  | rebuild ty parts => exact hbuilt (.rebuild ty parts)
  | mapVars f ty => exact hbuilt (.mapVars f ty)
  | replaceVar ty var replacement => exact hbuilt (.replaceVar ty var replacement)
  | substituteAll mapping ty => exact hbuilt (.substituteAll mapping ty)
  | instantiateFresh ty => exact hbuilt (.instantiateFresh ty)
  | declare kind name params => exact hatomic (h.atomic_declare kind name params)
  | declareTrait name params =>
    obtain ⟨st₁, d, ⟨hle, hnom⟩, -, hkind, heq⟩ := exists_declareTrait name params st
    show (StoreM.declareTrait name params st).2.Fitting
    rw [heq]
    exact (h.of_nominals hle hnom).declareTrait hkind
  | defineProduct decl fields names => exact hatomic (h.atomic_defineProduct hop names)
  | defineSum sum tags =>
    exact ((h.gives_defineSum tags).mono (fun _ hE => hE.1) fun _ _ h' => h').end fun _ _ h' => h'
  | variant parent parts args => exact hatomic (h.atomic_variant hop.1 hop.2.1 hop.2.2)
  | instantiate ty args =>
    exact hatomic ((h.gives_instantiate hop).mono (fun _ hE => hE.1) fun _ _ h' => h')
  | instantiateAtFresh ty => exact hatomic h.atomic_instantiateAtFresh
  | materialize ty => exact hatomic h.atomic_materialize
  | clearDeclared => exact h.clearDeclared

theorem fitting_runAll (h : st.Fitting) (hops : Along Suitable ops st) :
    (runAll ops st).Fitting := by
  induction ops generalizing st with
  | nil => exact h
  | cons op ops ih => exact ih (fitting_run h hops.1) hops.2

/-- An operation that is refused in a store that fits. -/
theorem run_of_refused (h : st.Fitting) (hop : op.Suitable st) (hrefused : op.refusal? st ≠ none) :
    op.run st = st ∨ ∃ sum before tag after, op = .defineSum sum (before ++ tag :: after) ∧
      (∀ t ∈ before, (st.productBody? t).isSome = true) ∧ op.run st = st.bindParents sum before := by
  cases op with
  | declare kind name params =>
    exact .inl (end_of_refused (h.atomic_declare kind name params) hrefused)
  | defineProduct decl fields names =>
    exact .inl (end_of_refused (h.atomic_defineProduct hop names) hrefused)
  | defineSum sum tags =>
    refine (end_of_refused (h.gives_defineSum tags) hrefused).2.imp_right ?_
    rintro ⟨before, tag, after, rfl, hbefore, hst⟩
    exact ⟨sum, before, tag, after, rfl, hbefore, hst⟩
  | variant parent parts args =>
    exact .inl (end_of_refused (h.atomic_variant hop.1 hop.2.1 hop.2.2) hrefused)
  | instantiate ty args => exact .inl (end_of_refused (h.gives_instantiate hop) hrefused).1
  | instantiateAtFresh ty => exact .inl (end_of_refused h.atomic_instantiateAtFresh hrefused)
  | materialize ty => exact .inl (end_of_refused h.atomic_materialize hrefused)
  | _ => exact absurd rfl hrefused

/-- Let operations be given what fits.  One that is refused leaves the store as it was, unless it gives
a sum its tags.  Then the tags before the one that is refused are products with a body, and those of
them that belonged to no sum belong to this one now; nothing else has changed. -/
theorem runAll_refused (ops : List Operation) (op : Operation) (hops : Along Suitable ops Store.new)
    (hop : op.Suitable (runAll ops Store.new)) (hrefused : op.refusal? (runAll ops Store.new) ≠ none) :
    let st := runAll ops Store.new
    op.run st = st ∨ ∃ sum before tag after, op = .defineSum sum (before ++ tag :: after) ∧
      SameButBodies st (op.run st) ∧ (op.run st).variants = st.variants ∧
      (∀ ty ∉ before, (op.run st).nominals.bodies[ty]? = st.nominals.bodies[ty]?) ∧
      ∀ ty ∈ before, ∃ body, st.productBody? ty = some body ∧
        (op.run st).productBody? ty = some { body with parent := body.parent.or (some sum) } := by
  intro st
  refine (run_of_refused (fitting_runAll fitting_new hops) hop hrefused).imp_right ?_
  rintro ⟨sum, before, tag, after, rfl, hbefore, hrun⟩
  refine ⟨sum, before, tag, after, rfl, ?_⟩
  rw [hrun]
  refine ⟨sameButBodies_bindParents _ sum before, variants_bindParents _ _ before,
    fun ty hty => bodies_bindParents_of_not_mem hty, fun ty hty => ?_⟩
  obtain ⟨body, hbody⟩ := Option.isSome_iff_exists.mp (hbefore ty hty)
  refine ⟨body, hbody, ?_⟩
  rw [productBody?_bindParents_of_some hbody, if_pos hty]

/-- A sum is refused its second tag when that has no body, and the first is tied by then. -/
theorem gives_defineSum_second {sumName : Name} {body : ProductBody} {other : TypeId}
    (h : st.Fitting) (hsum : st.Declares sumName sum .sum params)
    (hnone : st.nominals.bodies[sum]? = none) (hd : st.Declares name tag .product params)
    (hbody : st.productBody? tag = some body) (hlast : st.productBody? other = none) :
    Gives (DeclM.defineSum sum [tag, other]) st (fun st' => st' = st.bindParent tag sum)
      fun _ _ => False := by
  have hself : st.isDeclaration sum = true := by
    rw [Store.isDeclaration, (h.anchored.declares hsum.declared).1]
    exact beq_self_eq_true _
  have hlast' : (st.bindParent tag sum).productBody? other = none := by
    by_contra hsome
    obtain ⟨body', hbody'⟩ := Option.ne_none_iff_exists'.mp hsome
    obtain ⟨old, hold, -⟩ := productBody?_bindParent hbody'
    rw [hlast] at hold
    cases hold
  refine gives_get_bind ?_
  refine gives_refuse_bind (fun hrefused => ?_) fun _ => ?_
  · rw [hsum.kind, hself] at hrefused
    simp [DeclKind.kind] at hrefused
  refine gives_refuse_bind (fun hrefused => ?_) fun _ => ?_
  · simp [Std.HashMap.contains_eq_isSome_getElem?, hnone] at hrefused
  refine Gives.bind (Q := fun _ _ => False) ?_ fun _ _ hf => hf.elim
  refine Gives.bind (Q := fun _ st' => st' = st.bindParent tag sum) ?_ ?_
  · refine gives_get_bind ?_
    refine gives_refuse_bind (fun hkind => absurd hd.kind hkind) fun _ => ?_
    refine gives_refuse_bind (fun hargs => absurd (hd.nominalArgs.trans hsum.nominalArgs.symm) hargs)
      fun _ => ?_
    refine gives_refuse_bind (fun hmissing => ?_) fun _ => gives_modify rfl
    rw [hbody] at hmissing
    cases hmissing
  · rintro _ _ rfl
    refine Gives.bind (Q := fun _ _ => False) ?_ fun _ _ hf => hf.elim
    refine gives_get_bind ?_
    refine gives_refuse_bind (fun _ => rfl) fun _ => ?_
    refine gives_refuse_bind (fun _ => rfl) fun _ => ?_
    exact gives_refuse_bind (fun _ => rfl) fun hfound => absurd (by rw [hlast']; rfl) hfound

/-- A sum and two products over one parameter, of which the first gets a field. -/
def declareHalf (param full : TypeId) : List Operation :=
  declareCell ++ [.declare .product "Bare" ["a"], .defineProduct full [param] [none]]

theorem exists_declareHalf : ∃ param cell full bare : TypeId,
    let st := runAll (declareHalf param full) Store.new
    Along Suitable (declareHalf param full) Store.new ∧ st.Draft ∧
      st.Declares "Cell" cell .sum [param] ∧ st.Declares "Full" full .product [param] ∧
      st.nominals.bodies[full]? = some (.product ⟨[param], [none], none⟩) ∧
      st.nominals.bodies[cell]? = none ∧ st.nominals.bodies[bare]? = none := by
  obtain ⟨param, cell, full, hcell, hfull, hnone, hname⟩ := exists_declareCell
  have hdraft := draft_runAll draft_new drafts_declareCell
  have hfree : (runAll declareCell Store.new).declared? "Bare" = none := by
    by_contra hne
    obtain ⟨ty, hty⟩ := Option.ne_none_iff_exists'.mp hne
    rcases hname hty with h | h <;> exact absurd h (by decide)
  obtain ⟨bare, st₁, hrun₁, hdraft₁, hmore₁, ⟨vars, hbare, -⟩, -, hbodies₁⟩ :=
    (draft_declare .product "Bare" ["a"] hdraft).exists_ok fun _ h => h.2 hfree
  have hst₁ : (Operation.declare .product "Bare" ["a"]).run (runAll declareCell Store.new) = st₁ := by
    show ((DeclM.declare .product "Bare" ["a"]).run _).2 = st₁
    rw [hrun₁]
  have hnone₁ : ∀ ty, st₁.nominals.bodies[ty]? = none := fun ty => by
    rw [hbodies₁]
    exact hnone ty
  have hcell₁ := hmore₁.declares hcell
  have hfull₁ := hmore₁.declares hfull
  have hproduct : Gives (DeclM.defineProduct full [param] [none]) st₁ _ _ :=
    draft_defineProduct hdraft₁ hfull₁.params_lt
  obtain ⟨_, st₂, hrun₂, hdraft₂, hst₂⟩ := hproduct.exists_ok fun _ hrefused =>
    hrefused.2 _ _ hfull₁ (hnone₁ full)
  have hst : runAll (declareHalf param full) Store.new = st₂ := by
    rw [declareHalf, runAll_append]
    show ((DeclM.defineProduct full [param] [none]).run
      ((Operation.declare .product "Bare" ["a"]).run (runAll declareCell Store.new))).2 = st₂
    rw [hst₁, hrun₂]
  have hops : Along Suitable (declareHalf param full) Store.new := by
    refine ⟨trivial, trivial, trivial, trivial, ?_, trivial⟩
    show ∀ f ∈ [param], f < ((Operation.declare .product "Bare" ["a"]).run
      (runAll declareCell Store.new)).size
    rw [hst₁]
    exact hfull₁.params_lt
  -- only the product has got a body
  have hother : ∀ {ty name k params}, st₁.Declares name ty k params → name ≠ "Full" →
      st₂.nominals.bodies[ty]? = none := fun {ty name k params} hd hne => by
    rw [hst₂, bodies_setBody, if_neg]
    · exact hnone₁ ty
    · rintro rfl
      exact hne (hd.unique_of_id hfull₁).1
  have hsame : SameButBodies st₁ st₂ := hst₂ ▸ sameButBodies_setBody st₁ full _
  refine ⟨param, cell, full, bare, hops, ?_⟩
  rw [hst]
  refine ⟨hdraft₂, hsame.declares.mpr hcell₁, hsame.declares.mpr hfull₁, ?_,
    hother hcell₁ (by decide), hother hbare (by decide)⟩
  rw [hst₂, bodies_setBody, if_pos rfl]

/-- The sum is refused its second tag, which has no body. -/
theorem exists_refusedCell : ∃ param cell full bare,
    let st := runAll (declareHalf param full) Store.new
    let op := Operation.defineSum cell [full, bare]
    Along Suitable (declareHalf param full) Store.new ∧ op.Suitable st ∧ op.refusal? st ≠ none ∧
      st.nominals.bodies[full]? = some (.product ⟨[param], [none], none⟩) ∧
      (op.run st).nominals.bodies[full]? = some (.product ⟨[param], [none], some cell⟩) := by
  obtain ⟨param, cell, full, bare, hops, -, hcell, hfull, hbody, hnone, hbare⟩ := exists_declareHalf
  have hfull? := productBody?_eq_some.mpr hbody
  obtain ⟨hrefused, hrun⟩ := refused_of_gives (gives_defineSum_second (fitting_runAll fitting_new hops)
    hcell hnone hfull hfull? (by rw [Store.productBody?, hbare]))
  refine ⟨param, cell, full, bare, hops, trivial, hrefused, hbody, ?_⟩
  show ((DeclM.defineSum cell [full, bare]).run _).2.nominals.bodies[full]? = _
  rw [hrun, bodies_bindParent hfull?, if_pos rfl]
  rfl

/-- The refused sum: what is left behind is as described. -/
theorem runAll_refused_cell : ∃ param cell full bare,
    let st := runAll (declareHalf param full) Store.new
    let op := Operation.defineSum cell [full, bare]
    Along Suitable (declareHalf param full) Store.new ∧ op.Suitable st ∧ op.refusal? st ≠ none ∧
      (op.run st = st ∨ ∃ sum before tag after, op = .defineSum sum (before ++ tag :: after) ∧
        SameButBodies st (op.run st) ∧ (op.run st).variants = st.variants ∧
        (∀ ty ∉ before, (op.run st).nominals.bodies[ty]? = st.nominals.bodies[ty]?) ∧
        ∀ ty ∈ before, ∃ body, st.productBody? ty = some body ∧
          (op.run st).productBody? ty = some { body with parent := body.parent.or (some sum) }) := by
  obtain ⟨param, cell, full, bare, hops, hop, hrefused, -⟩ := exists_refusedCell
  exact ⟨param, cell, full, bare, hops, hop, hrefused, runAll_refused _ _ hops hop hrefused⟩

/-- A refused operation can leave a body changed. -/
theorem refused_changes_body : ¬ ∀ (ops : List Operation) (op : Operation),
    Along Suitable ops Store.new → op.Suitable (runAll ops Store.new) →
      op.refusal? (runAll ops Store.new) ≠ none → ∀ ty : TypeId,
        (op.run (runAll ops Store.new)).nominals.bodies[ty]? =
          (runAll ops Store.new).nominals.bodies[ty]? := by
  intro h
  obtain ⟨param, cell, full, bare, hops, hop, hrefused, hbefore, hafter⟩ := exists_refusedCell
  have hsame := h _ _ hops hop hrefused full
  rw [hbefore, hafter] at hsame
  cases hsame

end Operation

end ConstraintTyping
