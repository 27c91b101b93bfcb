import ConstraintTyping.Proofs.Types.Chains
import ConstraintTyping.Types.Variant

/-!
# Regular stores

A store changes from outside by building a type of some shape, by qualifying a type, or by a change
of what is declared; and a tuple without items is never asked for, because the unit type stands for
it.  Whatever else is done to a store consists of such steps, from any store and with any arguments,
refused or not.

In a store that such steps lead to, every type is what its own head builds over its own
constituents (`StoreM.rebuild_self`).
-/

namespace ConstraintTyping

namespace Store

variable {st st' : Store} {ty : TypeId}

/-! ## Steps -/

/-- One regular way to change a store. -/
inductive RegularStep (st : Store) : Store → Prop
  /-- Build a type of a shape that is neither a qualifier nor the tuple without items. -/
  | build (s : Shape TypeId) (hs : s.isQualified = false) (hne : s ≠ .tuple []) :
      RegularStep st (StoreM.intern s st).2
  /-- Qualify a type. -/
  | qualify (q : Qualifier) (base : TypeId) : RegularStep st (StoreM.qualify q base st).2
  /-- Change what is declared. -/
  | declare (nominals : Nominals) : RegularStep st { st with nominals }

/-- Any number of regular steps. -/
abbrev RegularSteps : Store → Store → Prop := Relation.ReflTransGen RegularStep

/-- A store that regular steps lead to from the store of the primitives. -/
def Regular (st : Store) : Prop := RegularSteps Store.new st

theorem RegularStep.step (h : RegularStep st st') : Step st st' := by
  cases h with
  | build s hs => exact .build s hs
  | qualify q base => exact .qualify q base
  | declare nominals => exact .declare nominals

theorem RegularSteps.steps (h : RegularSteps st st') : Steps st st' :=
  Relation.ReflTransGen.mono (fun _ _ => RegularStep.step) _ _ h

theorem RegularSteps.le (h : RegularSteps st st') : st ≤ st' := h.steps.le

theorem Regular.reachable (h : st.Regular) : st.Reachable := RegularSteps.steps h

theorem Regular.wellQualified (h : st.Regular) : st.WellQualified := h.reachable.wellQualified

/-- No type is a tuple without items. -/
def NoEmptyTuple (st : Store) : Prop := ∀ ty, st.shape ty ≠ .tuple []

theorem noEmptyTuple_intern {s : Shape TypeId} (h : st.NoEmptyTuple) (hs : s ≠ .tuple []) :
    (StoreM.intern s st).2.NoEmptyTuple := by
  intro ty
  rcases Nat.lt_or_ge ty st.size with hlt | hge
  · rw [shape_of_le (StoreM.intern_le s st) hlt]
    exact h ty
  rcases Nat.lt_or_ge ty (StoreM.intern s st).2.size with hlt | hout
  · rw [(StoreM.shape_intern_of_ge hge hlt).1]
    unfold TypeTable.key
    split
    · exact hs
    · cases s <;> simp_all [Shape.map]
  · simp [shape_of_ge hout]

theorem RegularStep.noEmptyTuple (hstep : RegularStep st st') (h : st.NoEmptyTuple) :
    st'.NoEmptyTuple := by
  cases hstep with
  | build s _ hne => exact noEmptyTuple_intern h hne
  | qualify q base =>
    exact StoreM.qualify_keeps (P := NoEmptyTuple)
      (fun _ _ _ h => noEmptyTuple_intern h nofun) h
  | declare nominals => exact h

theorem noEmptyTuple_new : Store.new.NoEmptyTuple := by
  intro ty
  obtain ⟨p, hp⟩ := exists_shape_new ty
  simp [hp]

theorem Regular.noEmptyTuple (h : st.Regular) : st.NoEmptyTuple := by
  induction h with
  | refl => exact noEmptyTuple_new
  | tail _ hstep ih => exact hstep.noEmptyTuple ih

/-! ## Building again what is there -/

/-- A shape of the store is stored as it is. -/
theorem key_shape (hty : ty < st.size) : st.table.key (st.shape ty) = st.shape ty := by
  unfold TypeTable.key
  split
  · rfl
  · next hq =>
    have hself : ∀ c ∈ (st.shape ty).children, st.table.bare c = id c := fun c hc =>
      bare_of_mem_children hty (by simpa using hq) hc
    rw [Shape.map_congr hself, Shape.map_id]

end Store

namespace StoreM

open Store

variable {α β : Type} {st : Store} {ty : TypeId}

/-- A shape that the store has is found. -/
theorem intern_of_shape {s : Shape TypeId} {ty : TypeId} (hty : ty < st.size)
    (h : st.shape ty = st.table.key s) : intern s st = (ty, st) := by
  obtain ⟨n, hn⟩ := exists_node hty
  have hid := st.table.lawful.find?_iff.mpr ⟨n, hn, (shape_of_node hn).symm.trans h⟩
  have hrun : st.table.intern s = (ty, st.table) := by
    unfold TypeTable.intern
    split
    · next id hid' => rw [Option.some.inj (hid'.symm.trans hid)]
    · next hnone => rw [hid] at hnone; cases hnone
  rw [intern_eq, hrun]

theorem intern_shape (hty : ty < st.size) : intern (st.shape ty) st = (ty, st) :=
  intern_of_shape hty (key_shape hty).symm

/-- A type built with its own head over its own constituents is itself. -/
theorem rebuild_self (h : st.Regular) (ty : TypeId) : rebuild ty (st.children ty) st = (ty, st) := by
  have hparts : (st.shape ty).withChildren? (st.children ty) = none ∨
      (st.shape ty).withChildren? (st.children ty) = some (st.shape ty) := by
    rcases Shape.withChildren?_map (f := id) (g := id) (s := st.shape ty) rfl with
      ⟨hnone, -⟩ | ⟨s, hs, hmap, -⟩
    · exact .inl hnone
    · rw [Shape.map_id, Shape.map_id] at hmap
      subst hmap
      exact .inr hs
  unfold rebuild
  simp only [StateM.bind_apply, StateM.get_apply]
  rcases hparts with hparts | hparts <;> rw [hparts]
  · rfl
  rcases Nat.lt_or_ge ty st.size with hlt | hge
  swap
  · rw [shape_of_ge hge] at hparts
    cases hparts
  have hself := intern_shape hlt
  cases hs : st.shape ty <;> rw [hs] at hself
  case qualified q base =>
    have hchain := h.wellQualified ty
    rw [qualifiers_of_qualified hs] at hchain
    exact (qualify_eq_wrap hchain).trans hself
  case tuple items =>
    have hne : items ≠ [] := fun hnil => h.noEmptyTuple ty (hnil ▸ hs)
    show tuple items st = _
    rw [tuple, if_neg (by simpa using hne), hself]
  all_goals exact hself

/-! ## Computations that take regular steps -/

/-- A computation takes regular steps and leaves the declarations alone. -/
def Regular (act : StoreM α) : Prop :=
  ∀ st, RegularSteps st (act st).2 ∧ (act st).2.nominals = st.nominals

theorem regular_pure (a : α) : Regular (pure a) := fun _ => ⟨.refl, rfl⟩

theorem regular_get : Regular get := fun _ => ⟨.refl, rfl⟩

theorem Regular.bind {act : StoreM α} {f : α → StoreM β} (hact : act.Regular)
    (hf : ∀ a, (f a).Regular) : (act >>= f).Regular := by
  intro st
  obtain ⟨hs, hnom⟩ := hact st
  obtain ⟨hs', hnom'⟩ := hf (act st).1 (act st).2
  exact ⟨hs.trans hs', hnom'.trans hnom⟩

theorem Regular.map {act : StoreM α} (f : α → β) (hact : act.Regular) : (f <$> act).Regular :=
  hact.bind fun a => regular_pure (f a)

theorem regular_ite {p : Prop} [Decidable p] {x y : StoreM α} (hx : x.Regular) (hy : y.Regular) :
    (if p then x else y).Regular := by
  split
  · exact hx
  · exact hy

theorem regular_mapM {f : α → StoreM β} (hf : ∀ a, (f a).Regular) (xs : List α) :
    (xs.mapM f).Regular := by
  induction xs with
  | nil => exact regular_pure []
  | cons x xs ih =>
    rw [List.mapM_cons]
    exact (hf x).bind fun y => ih.bind fun ys => regular_pure (y :: ys)

theorem regular_intern {s : Shape TypeId} (hs : s.isQualified = false) (hne : s ≠ .tuple []) :
    (intern s).Regular :=
  fun _ => ⟨.single (.build s hs hne), rfl⟩

theorem regular_pointer (target : TypeId) : (pointer target).Regular :=
  regular_intern (s := .pointer target) rfl nofun

theorem regular_array (elem : TypeId) (length : Option Nat) : (array elem length).Regular :=
  regular_intern (s := .array elem length) rfl nofun

theorem regular_function (sig : Signature TypeId) : (function sig).Regular :=
  regular_intern (s := .function sig) rfl nofun

theorem regular_traitType (name : Name) (subject : TypeId) (args : List TypeId) :
    (traitType name subject args).Regular :=
  regular_intern (s := .trait name subject args) rfl nofun

theorem regular_namedVar (name : Name) : (namedVar name).Regular :=
  regular_intern rfl nofun

theorem regular_freshVar : freshVar.Regular := fun st =>
  regular_intern (s := .var (.fresh st.table.freshCount)) rfl nofun st

theorem regular_tuple (items : List TypeId) : (tuple items).Regular := by
  unfold tuple
  split
  · exact regular_pure _
  · next hne => exact regular_intern rfl fun h => hne (by rw [Shape.tuple.inj h]; rfl)

theorem regular_qualify (q : Qualifier) (base : TypeId) : (qualify q base).Regular := fun st =>
  ⟨.single (.qualify q base), qualify_nominals q base st⟩

theorem regular_rebuild (ty : TypeId) (parts : List TypeId) : (rebuild ty parts).Regular := by
  unfold rebuild
  refine regular_get.bind fun st => ?_
  split
  · exact regular_pure _
  · exact regular_qualify _ _
  · exact regular_tuple _
  · next s hq ht _ =>
    refine regular_intern ?_ (ht _)
    cases s <;> first | rfl | exact absurd rfl (hq _ _)

theorem regular_mapVars (f : TypeId → TypeId) (ty : TypeId) : (mapVars f ty).Regular := by
  -- the walk meets the constituents that the store has when the walk comes by
  induction ty using Nat.strongRecOn with
  | ind ty ih =>
    rw [mapVars]
    refine regular_get.bind fun st => regular_ite (regular_ite (regular_pure _) ?_) (regular_pure _)
    have hloop : ((st.children ty).attach.mapM fun c => mapVars f c.1).Regular :=
      regular_mapM (f := fun c : { c // c ∈ st.children ty } => mapVars f c.1)
        (fun c => ih c.1 (lt_of_mem_children c.2)) _
    refine hloop.bind fun mapped => ?_
    exact regular_ite (regular_pure _) (regular_rebuild _ _)

theorem regular_substituteAll (mapping : List (TypeId × TypeId)) (ty : TypeId) :
    (substituteAll mapping ty).Regular :=
  regular_ite (regular_pure _) (regular_mapVars _ _)

theorem regular_instantiateFresh (ty : TypeId) : (instantiateFresh ty).Regular := by
  unfold instantiateFresh
  refine regular_get.bind fun st => ?_
  refine (regular_mapM (fun v => regular_freshVar.bind fun w => regular_pure (v, w)) _).bind ?_
  exact fun mapping => regular_substituteAll mapping ty

end StoreM

/-! ## Computations that can be refused -/

namespace DeclM

open Store

variable {α β : Type} {st : Store}

/-- A computation takes regular steps from a store, whether it is refused or not. -/
def RegularFrom (st : Store) (act : DeclM α) : Prop := RegularSteps st (act.run st).2

/-- A computation takes regular steps, wherever it starts. -/
def Regular (act : DeclM α) : Prop := ∀ st, RegularFrom st act

theorem regular_pure (a : α) : Regular (pure a) := fun _ => .refl

theorem regular_throw (e : DeclError) : Regular (throw e : DeclM α) := fun _ => .refl

/-- What would come after a refusal does not matter. -/
theorem regular_throw_bind (e : DeclError) (f : α → DeclM β) : Regular (throw e >>= f) :=
  fun _ => .refl

theorem regular_get : Regular (get : DeclM Store) := fun _ => .refl

theorem regular_lift {act : StoreM α} (h : act.Regular) : Regular (liftM act : DeclM α) :=
  fun st => (h st).1

theorem regular_modify {f : Store → Store} (h : ∀ st, (f st).table = st.table) :
    Regular (modify f : DeclM Unit) := by
  intro st
  have hf : f st = { st with nominals := (f st).nominals } := by rw [← h st]
  show RegularSteps st (f st)
  rw [hf]
  exact .single (.declare _)

theorem RegularFrom.bind {act : DeclM α} {f : α → DeclM β} (hact : RegularFrom st act)
    (hf : ∀ a, (f a).Regular) : RegularFrom st (act >>= f) := by
  have hrun : (act >>= f).run st = _ := ExceptT.run_bind act f ▸ StateM.bind_apply _ _ st
  unfold RegularFrom at hact ⊢
  rw [hrun]
  generalize act.run st = r at hact ⊢
  match r with
  | (.ok a, st') => exact hact.trans (hf a st')
  | (.error e, st') => exact hact

theorem Regular.bind {act : DeclM α} {f : α → DeclM β} (hact : act.Regular)
    (hf : ∀ a, (f a).Regular) : (act >>= f).Regular := fun st => (hact st).bind hf

theorem regular_get_bind {f : Store → DeclM α} (h : ∀ st, RegularFrom st (f st)) :
    Regular (get >>= f) := h

theorem regular_mapM {f : α → DeclM β} (hf : ∀ a, (f a).Regular) (xs : List α) :
    (xs.mapM f).Regular := by
  induction xs with
  | nil => exact regular_pure []
  | cons x xs ih =>
    rw [List.mapM_cons]
    exact (hf x).bind fun y => ih.bind fun ys => regular_pure (y :: ys)

theorem regular_forM {f : α → DeclM PUnit} (hf : ∀ a, (f a).Regular) (xs : List α) :
    (xs.forM f).Regular := by
  induction xs with
  | nil => exact regular_pure _
  | cons x xs ih =>
    exact (hf x).bind fun _ => ih

/-! ## Declarations -/

theorem table_bindParent (st : Store) (tag sum : TypeId) :
    (st.bindParent tag sum).table = st.table := by
  unfold Store.bindParent
  split <;> rfl

theorem table_ensureBody (st : Store) (ty : TypeId) (body : Body) :
    (ensureBody ty body st).table = st.table := by
  unfold ensureBody
  split <;> rfl

theorem regular_declare (kind : DeclKind) (name : Name) (params : List Name) :
    (declare kind name params).Regular := by
  unfold declare
  refine regular_get.bind fun st => ?_
  dsimp only
  split
  · exact regular_throw_bind _ _
  refine (regular_mapM (fun _ => regular_lift (StoreM.regular_namedVar _)) _).bind fun args => ?_
  have hshape : (kind.shape name args).isQualified = false ∧ kind.shape name args ≠ .tuple [] := by
    cases kind <;> exact ⟨rfl, nofun⟩
  refine (regular_lift (StoreM.regular_intern hshape.1 hshape.2)).bind fun decl => ?_
  exact Regular.bind (regular_modify (by intro; rfl)) fun _ => regular_pure _

theorem regular_defineProduct (decl : TypeId) (fields : List TypeId) (names : List (Option Name)) :
    (defineProduct decl fields names).Regular := by
  unfold defineProduct
  refine regular_get.bind fun st => ?_
  dsimp only
  split
  · exact regular_throw_bind _ _
  split
  · exact regular_throw_bind _ _
  · exact regular_modify (by intro; rfl)

theorem regular_bindTag (sum tag : TypeId) : (bindTag sum tag).Regular := by
  unfold bindTag
  refine regular_get.bind fun st => ?_
  dsimp only
  split
  · exact regular_throw_bind _ _
  split
  · exact regular_throw_bind _ _
  split
  · exact regular_throw_bind _ _
  · exact regular_modify fun st => table_bindParent st tag sum

theorem regular_defineSum (sum : TypeId) (tags : List TypeId) : (defineSum sum tags).Regular := by
  unfold defineSum
  refine regular_get.bind fun st => ?_
  dsimp only
  split
  · exact regular_throw_bind _ _
  split
  · exact regular_throw_bind _ _
  exact (regular_forM (regular_bindTag sum) tags).bind fun _ => regular_modify (by intro; rfl)

/-! ## Instances -/

theorem regular_declarationFor (ty : TypeId) (args : List TypeId) :
    (declarationFor ty args).Regular := by
  unfold declarationFor
  refine regular_get.bind fun st => ?_
  dsimp only
  split
  · exact regular_throw _
  split
  · exact regular_throw_bind _ _
  · exact regular_pure _

/-- An instance of what is no declaration is the type itself, which is there already. -/
theorem regularFrom_variantShape (st : Store) (decl : TypeId) (args : List TypeId) :
    RegularSteps st (StoreM.intern (variantShape (st.shape decl) args) st).2 := by
  have hself : RegularSteps st (StoreM.intern (st.shape decl) st).2 := by
    rcases Nat.lt_or_ge decl st.size with hlt | hge
    · rw [StoreM.intern_shape hlt]
    · rw [shape_of_ge hge]
      exact .single (.build _ rfl nofun)
  generalize st.shape decl = s at hself ⊢
  cases s with
  | product | sum => exact .single (.build _ rfl nofun)
  | trait =>
    cases args with
    | nil => exact hself
    | cons => exact .single (.build _ rfl nofun)
  | _ => exact hself

theorem regular_variantWith {instantiate : TypeId → List TypeId → DeclM TypeId}
    (hinst : ∀ ty args, (instantiate ty args).Regular) (parent : TypeId) (parts args : List TypeId) :
    (variantWith instantiate parent parts args).Regular := by
  unfold variantWith
  refine (regular_declarationFor parent args).bind fun decl => regular_get_bind fun st => ?_
  dsimp only
  split
  · exact regular_pure _ st
  split
  · exact regular_pure _ st
  refine RegularFrom.bind (regularFrom_variantShape st decl args) fun variant => ?_
  refine Regular.bind (regular_modify (by intro; rfl)) fun _ => ?_
  split
  · refine Regular.bind (regular_modify fun st => table_ensureBody st _ _) fun _ => ?_
    split
    · refine (hinst _ _).bind fun sumVariant => ?_
      exact Regular.bind (regular_modify fun st => table_bindParent st _ _) fun _ => regular_pure _
    · exact regular_pure _
  · refine Regular.bind (regular_modify fun st => table_ensureBody st _ _) fun _ => ?_
    refine (regular_modify fun st => ?_).bind fun _ => regular_pure _
    -- the tags are bound one after the other
    induction parts generalizing st with
    | nil => rfl
    | cons tag parts ih => exact (ih _).trans (table_bindParent st tag variant)
  · exact regular_pure _

theorem regular_instantiateWithin (depth : Nat) (ty : TypeId) (args : List TypeId) :
    (instantiateWithin depth ty args).Regular := by
  induction depth generalizing ty args with
  | zero => exact regular_throw _
  | succ depth ih =>
    unfold instantiateWithin
    refine (regular_declarationFor ty args).bind fun decl => regular_get.bind fun st => ?_
    dsimp only
    split
    · exact regular_pure _
    split
    · exact regular_pure _
    have hvariant : ∀ parts, (variantWith (instantiateWithin depth) decl parts args).Regular :=
      fun parts => regular_variantWith ih decl parts args
    split
    · refine (regular_mapM (fun _ => regular_lift ?_) _).bind hvariant
      exact StoreM.regular_substituteAll _ _
    · exact (regular_mapM (fun _ => ih _ _) _).bind hvariant
    · exact (regular_pure []).bind hvariant

theorem regular_instantiate (ty : TypeId) (args : List TypeId) : (instantiate ty args).Regular :=
  regular_get.bind fun _ => regular_instantiateWithin _ ty args

theorem regular_variant (parent : TypeId) (parts args : List TypeId) :
    (variant parent parts args).Regular :=
  regular_get.bind fun _ => regular_variantWith (regular_instantiateWithin _) parent parts args

theorem regular_instantiateAtFresh (ty : TypeId) : (instantiateAtFresh ty).Regular := by
  unfold instantiateAtFresh
  refine regular_get.bind fun st => ?_
  split
  · exact regular_throw _
  · refine (regular_mapM (fun _ => regular_lift StoreM.regular_freshVar) _).bind fun args => ?_
    exact regular_instantiate _ args

theorem regular_materialize (ty : TypeId) : (materialize ty).Regular := by
  unfold materialize
  refine regular_get.bind fun st => ?_
  split
  · exact regular_pure _
  · exact regular_instantiate _ _

end DeclM

end ConstraintTyping
