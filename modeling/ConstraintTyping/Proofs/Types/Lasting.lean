import ConstraintTyping.Proofs.Types.Facts
import ConstraintTyping.Proofs.Types.Materialize
import ConstraintTyping.Proofs.Types.Ungated

/-!
# What lasts

A property of stores lasts when everything that is done to a store keeps it: building a type that is
no product or sum, building one with the head of a type that is there, qualifying, declaring,
defining, entering an instance, tying a tag to its sum.  A computation that is put together from
these keeps every property that lasts, whatever numbers it is given and however it ends.
-/

namespace ConstraintTyping

namespace Store

/-- Everything that is done to a store keeps the property. -/
structure Lasting (P : Store → Prop) : Prop where
  build : ∀ {st : Store} {s : Shape TypeId}, P st → s.isQualified = false →
    (∀ (k : DeclKind) (name : Name) (args : List TypeId), s ≠ k.shape name args) →
    P (StoreM.intern s st).2
  /-- Build a type with the head of one that is there. -/
  again : ∀ {st : Store} {s : Shape TypeId} {ty : TypeId}, P st → s.isQualified = false →
    s.head = (st.shape ty).head → P (StoreM.intern s st).2
  qualify : ∀ {st : Store} {q : Qualifier} {base : TypeId}, P st → P (StoreM.qualify q base st).2
  declare : ∀ {st : Store} {k : DeclKind} {name : Name} {params : List Name}, P st →
    P ((DeclM.declare k name params).run st).2
  /-- Make a type that is no product or sum its own declaration. -/
  declareOther : ∀ {st : Store} {d : TypeId}, P st → d < st.size →
    (∀ k : DeclKind, st.kind d ≠ k.kind) →
    P { st with nominals.declOf := st.nominals.declOf.insert d d }
  define : ∀ {st : Store} {d : TypeId} {b : Body} {k : DeclKind}, P st →
    st.isDeclaration d = true → st.kind d = k.kind → P (st.setBody d b)
  bindParent : ∀ {st : Store} {tag sum : TypeId}, P st → P (st.bindParent tag sum)
  /-- Enter an instance of a product or sum with its body. -/
  enter : ∀ {st : Store} {ty d : TypeId} {args : List TypeId} {b : Body} {k : DeclKind}, P st →
    st.declOf? ty = some d → (st.nominalArgs d).length = args.length →
    st.nominals.variants[(d, args)]? = none → st.kind d = k.kind →
    P (DeclM.enterWith d args (DeclM.variantShape (st.shape d) args) b st).2
  /-- Enter an instance of anything else, which has no body. -/
  enterOther : ∀ {st : Store} {ty d : TypeId} {args : List TypeId}, P st →
    st.declOf? ty = some d → (st.nominalArgs d).length = args.length →
    st.nominals.variants[(d, args)]? = none → (∀ k : DeclKind, st.kind d ≠ k.kind) →
    P (DeclM.enterVariant d args (StoreM.intern (DeclM.variantShape (st.shape d) args) st).1
      (StoreM.intern (DeclM.variantShape (st.shape d) args) st).2)

/-- What making instances at given arguments does to a store keeps the property. -/
structure Admits (P : Store → Prop) (args : List TypeId) : Prop where
  replace : ∀ {st : Store} {mapping : List (TypeId × TypeId)} {ty : TypeId}, P st →
    P (StoreM.substituteAll mapping ty st).2
  bindParent : ∀ {st : Store} {tag sum : TypeId}, P st → P (st.bindParent tag sum)
  enter : ∀ {st : Store} {ty d : TypeId} {b : Body} {k : DeclKind}, P st →
    st.declOf? ty = some d → (st.nominalArgs d).length = args.length → st.nominalArgs d ≠ args →
    st.nominals.variants[(d, args)]? = none → st.kind d = k.kind →
    P (DeclM.enterWith d args (DeclM.variantShape (st.shape d) args) b st).2
  enterOther : ∀ {st : Store} {ty d : TypeId}, P st →
    st.declOf? ty = some d → (st.nominalArgs d).length = args.length →
    st.nominals.variants[(d, args)]? = none → (∀ k : DeclKind, st.kind d ≠ k.kind) →
    P (DeclM.enterVariant d args (StoreM.intern (DeclM.variantShape (st.shape d) args) st).1
      (StoreM.intern (DeclM.variantShape (st.shape d) args) st).2)

end Store

/-! ## Computations that keep a property -/

section Preserves

variable {σ ε α β : Type} {P : σ → Prop}

/-- A computation keeps a property of the states that it goes through. -/
def Preserves (P : σ → Prop) (act : StateM σ α) : Prop := ∀ s, P s → P (act s).2

theorem preserves_pure (a : α) : Preserves P (pure a) := fun _ h => h

theorem preserves_get : Preserves P get := fun _ h => h

theorem preserves_modify {f : σ → σ} (h : ∀ s, P s → P (f s)) : Preserves P (modify f) := h

theorem preserves_get_bind {f : σ → StateM σ β} (h : ∀ s, P s → P (f s s).2) :
    Preserves P (get >>= f) := h

theorem Preserves.bind {act : StateM σ α} {f : α → StateM σ β} (hact : Preserves P act)
    (hf : ∀ a, Preserves P (f a)) : Preserves P (act >>= f) := fun s h => hf _ _ (hact s h)

theorem preserves_ite {p : Prop} [Decidable p] {x y : StateM σ α} (hx : Preserves P x)
    (hy : Preserves P y) : Preserves P (if p then x else y) := by
  split
  · exact hx
  · exact hy

theorem preserves_mapM {f : α → StateM σ β} {xs : List α} (hf : ∀ x ∈ xs, Preserves P (f x)) :
    Preserves P (xs.mapM f) := by
  induction xs with
  | nil => exact preserves_pure []
  | cons x xs ih =>
    obtain ⟨hx, hxs⟩ := List.forall_mem_cons.mp hf
    rw [List.mapM_cons]
    exact hx.bind fun y => (ih hxs).bind fun ys => preserves_pure (y :: ys)

theorem preserves_forM {f : α → StateM σ PUnit} (hf : ∀ a, Preserves P (f a)) (xs : List α) :
    Preserves P (xs.forM f) := by
  induction xs with
  | nil => exact preserves_pure _
  | cons x xs ih => exact (hf x).bind fun _ => ih

theorem preserves_foldlM {f : β → α → StateM σ β} (hf : ∀ b a, Preserves P (f b a)) (xs : List α)
    (b : β) : Preserves P (xs.foldlM f b) := by
  induction xs generalizing b with
  | nil => exact preserves_pure b
  | cons x xs ih =>
    rw [List.foldlM_cons]
    exact (hf b x).bind ih

/-! Computations that can be refused. -/

theorem preserves_run_pure (a : α) : Preserves P (pure a : ExceptT ε (StateM σ) α).run :=
  fun _ h => h

theorem preserves_run_throw (e : ε) : Preserves P (throw e : ExceptT ε (StateM σ) α).run :=
  fun _ h => h

theorem preserves_run_get_bind {f : σ → ExceptT ε (StateM σ) α}
    (h : ∀ s, P s → P ((f s).run s).2) : Preserves P (get >>= f).run := h

theorem preserves_run_lift {act : StateM σ α} (h : Preserves P act) :
    Preserves P (liftM act : ExceptT ε (StateM σ) α).run := h

theorem preserves_run_bind {act : ExceptT ε (StateM σ) α} {f : α → ExceptT ε (StateM σ) β}
    (hact : Preserves P act.run) (hf : ∀ a, Preserves P (f a).run) :
    Preserves P (act >>= f).run := by
  intro s h
  rw [ExceptT.run_bind, StateM.bind_apply]
  have hkept := hact s h
  generalize act.run s = r at hkept ⊢
  match r with
  | (.ok a, s') => exact hf a s' hkept
  | (.error e, s') => exact hkept

theorem preserves_run_mapM {f : α → ExceptT ε (StateM σ) β} (hf : ∀ a, Preserves P (f a).run)
    (xs : List α) : Preserves P (xs.mapM f).run := by
  induction xs with
  | nil => exact preserves_run_pure []
  | cons x xs ih =>
    rw [List.mapM_cons]
    exact preserves_run_bind (hf x) fun y =>
      preserves_run_bind ih fun ys => preserves_run_pure (y :: ys)

theorem preserves_run_forM {f : α → ExceptT ε (StateM σ) PUnit} (hf : ∀ a, Preserves P (f a).run)
    (xs : List α) : Preserves P (xs.forM f).run := by
  induction xs with
  | nil => exact preserves_run_pure _
  | cons x xs ih => exact preserves_run_bind (hf x) fun _ => ih

end Preserves

namespace StoreM

open Store

variable {α β : Type} {P : Store → Prop} {st : Store}

/-- A built type has the shape that was asked for, unless that could not be built. -/
theorem shape_intern (s : Shape TypeId) (st : Store) :
    (intern s st).2.shape (intern s st).1 = st.table.key s ∨
      (intern s st).2.shape (intern s st).1 = .prim .error := by
  rcases st.table.intern_cases s with ⟨id, hid, h⟩ | ⟨-, h, -⟩ | ⟨-, h⟩
  · obtain ⟨n, hn, hns⟩ := st.table.lawful.find?_iff.mp hid
    left
    rw [intern_eq, h]
    exact (shape_of_node hn).trans hns
  · exact .inl (shape_intern_of_ge (Nat.le_of_eq h.symm) (intern_lt_size s st)).1
  · right
    rw [intern_eq, h]
    exact shape_prim .error

theorem kind_intern (s : Shape TypeId) (st : Store) :
    (intern s st).2.kind (intern s st).1 = s.kind ∨
      (intern s st).2.kind (intern s st).1 = .prim .error := by
  refine (shape_intern s st).imp (fun h => ?_) fun h => by rw [Store.kind, h]; rfl
  rw [Store.kind, h]
  unfold TypeTable.key
  split
  · rfl
  · exact Shape.kind_map _ _

/-- What a computation keeps holds besides what it gives. -/
theorem Gives.preserves {ε : Type} {act : ExceptT ε StoreM α} {E : Store → Prop}
    {Q : α → Store → Prop} (h : Gives act st E Q) (hact : Preserves P act.run) (hst : P st) :
    Gives act st (fun st' => E st' ∧ P st') fun a st' => Q a st' ∧ P st' := by
  have hkept := hact st hst
  rcases h with ⟨a, st', hrun, hQ⟩ | ⟨e, st', hrun, hE⟩ <;> rw [hrun] at hkept
  · exact .inl ⟨a, st', hrun, hQ, hkept⟩
  · exact .inr ⟨e, st', hrun, hE, hkept⟩

theorem gives_of_preserves {ε : Type} {act : ExceptT ε StoreM α} (h : Preserves P act.run)
    (hst : P st) : Gives act st P fun _ => P := by
  have hkept := h st hst
  generalize hrun : act.run st = r at hkept
  match r with
  | (.ok a, st') => exact .inl ⟨a, st', hrun, hkept⟩
  | (.error e, st') => exact .inr ⟨e, st', hrun, hkept⟩

theorem length_mapM (f : α → StoreM β) (xs : List α) (st : Store) :
    (xs.mapM f st).1.length = xs.length := by
  induction xs generalizing st with
  | nil => rfl
  | cons x xs ih =>
    rw [List.mapM_cons]
    exact congrArg (· + 1) (ih (f x st).2)

variable (hP : Lasting P)
include hP

/-! ## Building -/

theorem preserves_intern {s : Shape TypeId} (hq : s.isQualified = false)
    (hs : ∀ (k : DeclKind) (name : Name) (args : List TypeId), s ≠ k.shape name args) :
    Preserves P (intern s) :=
  fun _ h => hP.build h hq hs

theorem preserves_pointer (target : TypeId) : Preserves P (pointer target) :=
  preserves_intern hP rfl fun k _ _ => by cases k <;> exact nofun

theorem preserves_array (elem : TypeId) (length : Option Nat) : Preserves P (array elem length) :=
  preserves_intern hP rfl fun k _ _ => by cases k <;> exact nofun

theorem preserves_function (sig : Signature TypeId) : Preserves P (function sig) :=
  preserves_intern hP rfl fun k _ _ => by cases k <;> exact nofun

theorem preserves_traitType (name : Name) (subject : TypeId) (args : List TypeId) :
    Preserves P (traitType name subject args) :=
  preserves_intern hP rfl fun k _ _ => by cases k <;> exact nofun

theorem preserves_namedVar (name : Name) : Preserves P (namedVar name) :=
  preserves_intern hP rfl fun k _ _ => by cases k <;> exact nofun

theorem preserves_freshVar : Preserves P freshVar := fun st =>
  preserves_intern hP (s := .var (.fresh st.table.freshCount)) rfl
    (fun k _ _ => by cases k <;> exact nofun) st

theorem preserves_tuple (items : List TypeId) : Preserves P (tuple items) :=
  preserves_ite (preserves_pure _) (preserves_intern hP rfl fun k _ _ => by cases k <;> exact nofun)

theorem preserves_qualify (q : Qualifier) (base : TypeId) : Preserves P (qualify q base) :=
  fun _ h => hP.qualify h

/-! ## Rewriting -/

/-- A type with as many new constituents. -/
theorem preserves_rebuild {ty : TypeId} {parts : List TypeId} (h : P st)
    (hlen : parts.length = (st.children ty).length) : P (rebuild ty parts st).2 := by
  unfold rebuild
  simp only [StateM.bind_apply, StateM.get_apply]
  rcases Shape.withChildren?_of_length (s := st.shape ty) hlen with
    ⟨hnone, -⟩ | ⟨s, hs, hhead, -, -⟩
  · rw [hnone]
    exact h
  rw [hs]
  cases s with
  | qualified q base => exact hP.qualify h
  | tuple items => exact preserves_tuple hP items st h
  | _ => exact hP.again h rfl hhead

theorem preserves_mapVars (f : TypeId → TypeId) (ty : TypeId) : Preserves P (mapVars f ty) := by
  induction ty using Nat.strongRecOn with
  | ind ty ih =>
    rw [mapVars_eq]
    refine preserves_get_bind fun st h => ?_
    split
    · next hg =>
      split
      · exact h
      · have hloop : Preserves P ((st.children ty).mapM (mapVars f)) :=
          preserves_mapM fun c hc => ih c (lt_of_mem_children hc)
        have hlen := length_mapM (mapVars f) (st.children ty) st
        have hle := (builds_mapM (builds_mapVars f) (st.children ty) st).1
        have hst₁ := hloop st h
        show P ((ite (((st.children ty).mapM (mapVars f) st).1 = st.children ty) (pure ty)
          (rebuild ty ((st.children ty).mapM (mapVars f) st).1) : StoreM TypeId)
            ((st.children ty).mapM (mapVars f) st).2).2
        split
        · exact hst₁
        · refine preserves_rebuild hP hst₁ (hlen.trans ?_)
          rw [children_of_le hle (lt_size_of_isGeneric hg)]
    · exact h

theorem preserves_replaceVar (ty var replacement : TypeId) :
    Preserves P (replaceVar ty var replacement) :=
  preserves_mapVars hP _ ty

theorem preserves_substituteAll (mapping : List (TypeId × TypeId)) (ty : TypeId) :
    Preserves P (substituteAll mapping ty) :=
  preserves_ite (preserves_pure _) (preserves_mapVars hP _ ty)

theorem preserves_instantiateFresh (ty : TypeId) : Preserves P (instantiateFresh ty) := by
  unfold instantiateFresh
  refine preserves_get.bind fun st => Preserves.bind ?_ fun mapping =>
    preserves_substituteAll hP mapping ty
  exact preserves_mapM fun v _ => (preserves_freshVar hP).bind fun w => preserves_pure (v, w)

end StoreM

/-! ## Instances -/

theorem Store.Lasting.admits {P : Store → Prop} (hP : Lasting P) (args : List TypeId) :
    Admits P args where
  replace {st mapping ty} h := StoreM.preserves_substituteAll hP mapping ty st h
  bindParent h := hP.bindParent h
  enter h hd hlen _ hfree hkind := hP.enter h hd hlen hfree hkind
  enterOther h hd hlen hfree hkind := hP.enterOther h hd hlen hfree hkind

namespace DeclM

open Store StoreM

variable {α : Type} {P : Store → Prop}

/-- What goes on from the declaration behind a type knows which it is and how many arguments it
takes. -/
theorem preserves_declarationFor_bind {ty : TypeId} {args : List TypeId} {f : TypeId → DeclM α}
    (h : ∀ st decl, P st → st.declOf? ty = some decl →
      (st.nominalArgs decl).length = args.length → P ((f decl).run st).2) :
    Preserves P (declarationFor ty args >>= f).run := by
  intro st hst
  rw [ExceptT.run_bind, StateM.bind_apply, declarationFor_run]
  cases hd : st.declOf? ty with
  | none => exact hst
  | some decl =>
    dsimp only
    by_cases hlen : (st.nominalArgs decl).length = args.length
    · rw [if_neg (not_not_intro hlen)]
      exact h st decl hst hd hlen
    · rw [if_pos hlen]
      exact hst

theorem preserves_bindTag (hbind : ∀ {st tag sum}, P st → P (st.bindParent tag sum))
    (sum tag : TypeId) : Preserves P (bindTag sum tag).run := by
  unfold bindTag
  refine preserves_run_get_bind fun st h => ?_
  dsimp only
  split
  · exact h
  split
  · exact h
  split
  · exact h
  · exact hbind h

section Definitions

variable (hdefine : ∀ {st d b} {k : DeclKind}, P st → st.isDeclaration d = true →
    st.kind d = k.kind → P (st.setBody d b))
  (hbind : ∀ {st tag sum}, P st → P (st.bindParent tag sum))
include hdefine

theorem preserves_defineProduct (decl : TypeId) (fields : List TypeId)
    (names : List (Option Name)) : Preserves P (defineProduct decl fields names).run := by
  unfold defineProduct
  refine preserves_run_get_bind fun st h => ?_
  dsimp only
  split
  · exact h
  next hdecl =>
  split
  · exact h
  · rw [Bool.or_eq_true, not_or] at hdecl
    exact hdefine (k := .product) h (by simpa using hdecl.2)
      (by simpa [DeclKind.kind] using hdecl.1)

include hbind

/-- The tags are bound to a declaration, which it still is when it gets its body. -/
theorem preserves_defineSum (sum : TypeId) (tags : List TypeId) :
    Preserves P (defineSum sum tags).run := by
  unfold defineSum
  refine preserves_run_get_bind fun st h => ?_
  dsimp only
  split
  · exact h
  next hdecl =>
  split
  · exact h
  rw [Bool.or_eq_true, not_or] at hdecl
  let Q : Store → Prop := fun st =>
    P st ∧ st.isDeclaration sum = true ∧ st.kind sum = DeclKind.sum.kind
  have hQ : Q st := ⟨h, by simpa using hdecl.2, by simpa [DeclKind.kind] using hdecl.1⟩
  have hbound : ∀ {st tag parent}, Q st → Q (st.bindParent tag parent) := by
    rintro st tag parent ⟨h, hself, hkind⟩
    have hsame := sameButBodies_bindParent st tag parent
    refine ⟨hbind h, ?_, ?_⟩
    · rw [isDeclaration, hsame.declOf]
      exact hself
    · rw [Store.kind, hsame.shape]
      exact hkind
  have hloop : Preserves Q (tags.forM (bindTag sum)).run :=
    preserves_run_forM (fun tag => preserves_bindTag hbound sum tag) tags
  rw [ExceptT.run_bind, StateM.bind_apply]
  have hkept := hloop st hQ
  generalize (tags.forM (bindTag sum)).run st = r at hkept ⊢
  obtain ⟨outcome, st'⟩ := r
  cases outcome with
  | ok => exact hdefine hkept.1 hkept.2.1 hkept.2.2
  | error e => exact hkept.1

end Definitions

section Admits

variable {args : List TypeId} (hP : Admits P args)
include hP

/-- An instance made from given parts. -/
theorem preserves_variantWith {inst : TypeId → List TypeId → DeclM TypeId}
    (hinst : ∀ ty, Preserves P (inst ty args).run) (parent : TypeId) (parts : List TypeId) :
    Preserves P (variantWith inst parent parts args).run := by
  unfold variantWith
  refine preserves_declarationFor_bind fun st decl h hd hlen => ?_
  show P (ExceptT.run (if st.nominalArgs decl = args then _ else _ : DeclM TypeId) st).2
  split
  · exact h
  next hne =>
  cases hv : st.nominals.variants[(decl, args)]? with
  | some w => exact h
  | none =>
    dsimp only
    -- what is done once the instance is entered
    cases hkind : st.kind decl with
    | product =>
      have hentered := fun b => hP.enter (b := b) (k := .product) h hd hlen hne hv hkind
      cases hbody : st.productBody? decl with
      | none => exact hentered _
      | some body =>
        dsimp only
        cases hparent : body.parent with
        | none => exact hentered _
        | some sum =>
          have hrest : ∀ variant, Preserves P (do
              let sumVariant ← inst sum args
              modify (·.bindParent variant sumVariant)
              return variant : DeclM TypeId).run := fun variant =>
            preserves_run_bind (hinst sum) fun _ _ h => hP.bindParent h
          exact hrest _ _ (hentered (.product
            { fields := parts, fieldNames := body.fieldNames, parent := none }))
    | sum =>
      have hentered := hP.enter (b := .sum parts) (k := .sum) h hd hlen hne hv hkind
      have hloop : ∀ (variant : TypeId) (tags : List TypeId) (st : Store), P st →
          P (tags.foldl (fun st tag => st.bindParent tag variant) st) := by
        intro variant tags
        induction tags with
        | nil => exact fun _ h => h
        | cons tag tags ih => exact fun st h => ih _ (hP.bindParent h)
      exact hloop _ parts _ hentered
    | _ =>
      exact hP.enterOther h hd hlen hv fun k hk => by cases k <;> cases hkind.symm.trans hk

theorem preserves_instantiateWithin (depth : Nat) (ty : TypeId) :
    Preserves P (instantiateWithin depth ty args).run := by
  induction depth generalizing ty with
  | zero => exact preserves_run_throw _
  | succ depth ih =>
    unfold instantiateWithin
    refine preserves_declarationFor_bind fun st decl h _ _ => ?_
    show P (ExceptT.run (if st.nominalArgs decl = args then _ else _ : DeclM TypeId) st).2
    split
    · exact h
    have hvariant : ∀ parts,
        Preserves P (variantWith (instantiateWithin depth) decl parts args).run :=
      fun parts => preserves_variantWith hP ih decl parts
    cases st.nominals.variants[(decl, args)]? with
    | some w => exact h
    | none =>
      dsimp only
      split
      · refine preserves_run_bind (preserves_run_mapM (fun field => ?_) _) hvariant st h
        exact preserves_run_lift fun _ => hP.replace
      · exact preserves_run_bind (preserves_run_mapM ih _) hvariant st h
      · exact hvariant [] st h

theorem preserves_instantiate (ty : TypeId) : Preserves P (instantiate ty args).run :=
  preserves_run_get_bind fun st h => preserves_instantiateWithin hP _ ty st h

theorem preserves_variant (parent : TypeId) (parts : List TypeId) :
    Preserves P (variant parent parts args).run :=
  preserves_run_get_bind fun st h =>
    preserves_variantWith hP (preserves_instantiateWithin hP _) parent parts st h

end Admits

section Requests

variable (hP : Lasting P)
include hP

theorem preserves_instantiateAtFresh (ty : TypeId) : Preserves P (instantiateAtFresh ty).run := by
  unfold instantiateAtFresh
  refine preserves_run_get_bind fun st h => ?_
  split
  · exact h
  · refine preserves_run_bind (preserves_run_mapM (fun _ => ?_) _) (fun args => ?_) st h
    · exact preserves_run_lift (preserves_freshVar hP)
    · exact preserves_instantiate (hP.admits args) _

theorem preserves_materialize (ty : TypeId) : Preserves P (materialize ty).run := by
  unfold materialize
  refine preserves_run_get_bind fun st h => ?_
  split
  · exact h
  · exact preserves_instantiate (hP.admits _) ty st h

end Requests

end DeclM

/-- Giving the products and sums in a type their bodies. -/
theorem StoreM.preserves_materializeAll {P : Store → Prop} (hP : Store.Lasting P) (ty : TypeId) :
    Preserves P (materializeAll ty) := by
  induction ty using Nat.strongRecOn with
  | ind ty ih =>
    rw [materializeAll]
    refine preserves_get.bind fun st => preserves_ite (preserves_pure _) ?_
    have hparts : Preserves P ((st.children ty).attach.forM
        fun c : { c // c ∈ st.children ty } => materializeAll c.1) :=
      preserves_forM (fun c : { c // c ∈ st.children ty } =>
        ih c.1 (Store.lt_of_mem_children c.2)) _
    split
    · exact (DeclM.preserves_materialize hP ty).bind fun _ => hparts
    · exact hparts

end ConstraintTyping
