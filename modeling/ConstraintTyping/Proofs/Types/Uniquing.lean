import ConstraintTyping.Proofs.Types.Building
import ConstraintTyping.Proofs.Types.Chains
import ConstraintTyping.Types.Variant

/-!
# One number for every description

Whatever is done to a store from outside, in any order and with any arguments, refused or not, keeps
every type that was there: its shape, the facts kept with it and its number.  So a description of a
type that was built once is found again, and building it anew changes nothing.

`Operation` lists what can be done.  One operation takes regular steps (`Operation.regular_run`),
hence so does every run of operations (`Operation.regular_runAll`), and such steps keep all types.
-/

namespace ConstraintTyping

/-! ## Operations -/

/-- A description of a type, as a constructor takes it. -/
inductive Description where
  | pointer (target : TypeId)
  | array (elem : TypeId) (length : Option Nat)
  | tuple (items : List TypeId)
  | aggregate (kind : Kind) (parts : List TypeId)
  | function (sig : Signature TypeId)
  | namedVar (name : Name)
  | traitType (name : Name) (subject : TypeId) (args : List TypeId)
  | qualified (qualifier : Qualifier) (base : TypeId)

namespace Description

/-- The types that a description speaks of. -/
def parts : Description → List TypeId
  | pointer target => [target]
  | array elem _ => [elem]
  | tuple items => items
  | aggregate _ parts => parts
  | function sig => sig.children
  | namedVar _ => []
  | traitType _ subject args => subject :: args
  | qualified _ base => [base]

/-- The type of a description, added to the store on the first request. -/
def build : Description → StoreM (Except AggregateError TypeId)
  | pointer target => .ok <$> StoreM.pointer target
  | array elem length => .ok <$> StoreM.array elem length
  | tuple items => .ok <$> StoreM.tuple items
  | aggregate kind parts => StoreM.aggregate kind parts
  | function sig => .ok <$> StoreM.function sig
  | namedVar name => .ok <$> StoreM.namedVar name
  | traitType name subject args => .ok <$> StoreM.traitType name subject args
  | qualified qualifier base => .ok <$> StoreM.qualify qualifier base

end Description

/-- What can be done to a store from outside. -/
inductive Operation where
  | construct (description : Description)
  | freshVar
  | rebuild (ty : TypeId) (parts : List TypeId)
  | mapVars (f : TypeId → TypeId) (ty : TypeId)
  | replaceVar (ty var replacement : TypeId)
  | substituteAll (mapping : List (TypeId × TypeId)) (ty : TypeId)
  | instantiateFresh (ty : TypeId)
  | declare (kind : DeclKind) (name : Name) (params : List Name)
  | declareTrait (name : Name) (params : List Name)
  | defineProduct (decl : TypeId) (fields : List TypeId) (names : List (Option Name))
  | defineSum (sum : TypeId) (tags : List TypeId)
  | variant (parent : TypeId) (parts args : List TypeId)
  | instantiate (ty : TypeId) (args : List TypeId)
  | instantiateAtFresh (ty : TypeId)
  | materialize (ty : TypeId)
  | clearDeclared

namespace Operation

/-- The store after an operation. -/
def run : Operation → Store → Store
  | construct description, st => (description.build st).2
  | freshVar, st => (StoreM.freshVar st).2
  | rebuild ty parts, st => (StoreM.rebuild ty parts st).2
  | mapVars f ty, st => (StoreM.mapVars f ty st).2
  | replaceVar ty var replacement, st => (StoreM.replaceVar ty var replacement st).2
  | substituteAll mapping ty, st => (StoreM.substituteAll mapping ty st).2
  | instantiateFresh ty, st => (StoreM.instantiateFresh ty st).2
  | declare kind name params, st => ((DeclM.declare kind name params).run st).2
  | declareTrait name params, st => (StoreM.declareTrait name params st).2
  | defineProduct decl fields names, st => ((DeclM.defineProduct decl fields names).run st).2
  | defineSum sum tags, st => ((DeclM.defineSum sum tags).run st).2
  | variant parent parts args, st => ((DeclM.variant parent parts args).run st).2
  | instantiate ty args, st => ((DeclM.instantiate ty args).run st).2
  | instantiateAtFresh ty, st => ((DeclM.instantiateAtFresh ty).run st).2
  | materialize ty, st => ((DeclM.materialize ty).run st).2
  | clearDeclared, st => st.clearDeclared

/-- The store after a list of operations, one after the other. -/
def runAll (ops : List Operation) (st : Store) : Store := ops.foldl (fun st op => op.run st) st

end Operation

namespace Description

theorem regular_build (d : Description) : d.build.Regular := by
  cases d with
  | pointer target => exact (StoreM.regular_pointer target).map _
  | array elem length => exact (StoreM.regular_array elem length).map _
  | tuple items => exact (StoreM.regular_tuple items).map _
  | aggregate kind parts =>
    show (StoreM.aggregate kind parts).Regular
    unfold StoreM.aggregate
    split
    · exact (StoreM.regular_pointer _).map _
    · exact (StoreM.regular_array _ _).map _
    · exact (StoreM.regular_tuple _).map _
    · exact (StoreM.regular_function _).map _
    · exact StoreM.regular_pure _
  | function sig => exact (StoreM.regular_function sig).map _
  | namedVar name => exact (StoreM.regular_namedVar name).map _
  | traitType name subject args => exact (StoreM.regular_traitType name subject args).map _
  | qualified qualifier base => exact (StoreM.regular_qualify qualifier base).map _

theorem builds_build (d : Description) : d.build.Builds := d.regular_build.builds

end Description

namespace Operation

/-- An operation is a sequence of regular steps. -/
theorem regular_run (op : Operation) (st : Store) : Store.RegularSteps st (op.run st) := by
  cases op with
  | construct d => exact (d.regular_build st).1
  | freshVar => exact (StoreM.regular_freshVar st).1
  | rebuild ty parts => exact (StoreM.regular_rebuild ty parts st).1
  | mapVars f ty => exact (StoreM.regular_mapVars f ty st).1
  | replaceVar ty var replacement => exact (StoreM.regular_mapVars _ ty st).1
  | substituteAll mapping ty => exact (StoreM.regular_substituteAll mapping ty st).1
  | instantiateFresh ty => exact (StoreM.regular_instantiateFresh ty st).1
  | declare kind name params => exact DeclM.regular_declare kind name params st
  | declareTrait name params =>
    have hvars := StoreM.regular_mapM StoreM.regular_namedVar params
    exact ((hvars st).1.trans (StoreM.regular_traitType name _ _ _).1).tail (.declare _)
  | defineProduct decl fields names => exact DeclM.regular_defineProduct decl fields names st
  | defineSum sum tags => exact DeclM.regular_defineSum sum tags st
  | variant parent parts args => exact DeclM.regular_variant parent parts args st
  | instantiate ty args => exact DeclM.regular_instantiate ty args st
  | instantiateAtFresh ty => exact DeclM.regular_instantiateAtFresh ty st
  | materialize ty => exact DeclM.regular_materialize ty st
  | clearDeclared => exact .single (.declare _)

/-- A run of operations is a sequence of regular steps. -/
theorem regular_runAll (ops : List Operation) (st : Store) :
    Store.RegularSteps st (runAll ops st) := by
  induction ops generalizing st with
  | nil => exact .refl
  | cons op ops ih => exact (op.regular_run st).trans (ih _)

/-- A run of operations keeps all types. -/
theorem le_runAll (ops : List Operation) (st : Store) : st ≤ runAll ops st :=
  (regular_runAll ops st).le

end Operation

/-! ## Building again -/

namespace StoreM

open Store

variable {α β : Type} {st : Store}

/-- Once a computation has run, running it again in a larger store gives the same result and adds
nothing. -/
def Repeats (act : StoreM α) (st : Store) : Prop :=
  ∀ st', (act st).2 ≤ st' → act st' = ((act st).1, st')

theorem repeats_pure (a : α) : Repeats (pure a) st := fun _ _ => rfl

theorem Repeats.map {act : StoreM α} (h : act.Repeats st) (f : α → β) :
    (f <$> act).Repeats st := by
  intro st' hle
  rw [StateM.map_apply, h st' hle]
  rfl

theorem Repeats.bind {act : StoreM α} {f : α → StoreM β} (hact : act.Repeats st)
    (hf : (f (act st).1).Repeats (act st).2) (hbuilds : ∀ a, (f a).Builds) :
    (act >>= f).Repeats st := by
  intro st' hle
  rw [StateM.bind_apply, hact st' (le_trans (hbuilds _ _).1 hle)]
  exact hf st' hle

theorem key_of_le {st' : Store} (hle : st ≤ st') {s : Shape TypeId}
    (hs : ∀ c ∈ s.children, c < st.size) : st'.table.key s = st.table.key s := by
  unfold TypeTable.key
  split
  · rfl
  · exact Shape.map_congr fun c hc => bare_of_le hle (hs c hc)

theorem repeats_intern {s : Shape TypeId} (hs : ∀ c ∈ s.children, c < st.size) :
    (intern s).Repeats st := by
  intro st' hle
  obtain ⟨hlt, hshape⟩ := intern_spec hs
  refine intern_of_shape (lt_size_of_le hle hlt) ?_
  rw [shape_of_le hle hlt, hshape, key_of_le (le_trans (intern_le s st) hle) hs]

theorem repeats_tuple {items : List TypeId} (h : ∀ c ∈ items, c < st.size) :
    (tuple items).Repeats st := by
  unfold tuple
  split
  · exact repeats_pure _
  · exact repeats_intern h

theorem repeats_wrap (q : Qualifier) {base : TypeId} (hbase : base < st.size) :
    (wrap q base).Repeats st :=
  repeats_intern (by simpa [Shape.children] using hbase)

theorem repeats_wraps (qs : List Qualifier) {base : TypeId} (hbase : base < st.size) :
    (qs.foldlM (fun inner q => wrap q inner) base).Repeats st := by
  induction qs generalizing base st with
  | nil => exact repeats_pure base
  | cons q qs ih =>
    rw [List.foldlM_cons]
    refine (repeats_wrap q hbase).bind (ih (wrap_spec q hbase).2.1) fun inner => ?_
    exact builds_foldlM (fun _ _ => builds_intern _) qs inner

/-- Qualifying looks at the chain under the new qualifier, which does not change. -/
theorem repeats_qualify (q : Qualifier) {base : TypeId} (hbase : base < st.size) :
    (qualify q base).Repeats st := by
  intro st' hle
  have hle' : st ≤ st' := le_trans (qualify_le q base st) hle
  rw [qualify_eq q base st', qualifiers_of_le hle' hbase, bare_of_le hle' hbase]
  rw [qualify_eq q base st] at hle ⊢
  split_ifs at hle ⊢
  · rfl
  · rfl
  · have hchain := repeats_wraps ((st.qualifiers base).reverse.filter (· ≠ .constant))
      (bare_lt_size hbase)
    have hlt := (wraps_spec ((st.qualifiers base).reverse.filter (· ≠ .constant))
      (bare_lt_size hbase)).2.1
    exact hchain.bind (repeats_wrap .mutable hlt) (fun _ => builds_intern _) st' hle
  · exact repeats_wrap q hbase st' hle

theorem repeats_get_bind {f : Store → StoreM α} (hbuilds : (get >>= f).Builds)
    (h : ∀ st', st ≤ st' → f st' = f st) (hf : (f st).Repeats st) : (get >>= f).Repeats st := by
  intro st' hle
  have hle' : st ≤ st' := le_trans (hbuilds st).1 hle
  show f st' st' = _
  rw [h st' hle']
  exact hf st' hle

theorem repeats_mapM {f : α → StoreM β} (xs : List α) (hbuilds : ∀ x, (f x).Builds)
    (h : ∀ x ∈ xs, ∀ st', st ≤ st' → (f x).Repeats st') : (xs.mapM f).Repeats st := by
  induction xs generalizing st with
  | nil => exact repeats_pure []
  | cons x xs ih =>
    rw [List.mapM_cons]
    have hrest : ∀ y, (do let ys ← xs.mapM f; pure (y :: ys)).Builds := fun y =>
      (builds_mapM hbuilds xs).bind fun _ => builds_pure _
    refine (h x List.mem_cons_self st le_rfl).bind (Repeats.map (ih fun y hy st' hle => ?_) _) hrest
    exact h y (List.mem_cons_of_mem x hy) st' (le_trans (hbuilds x st).1 hle)

theorem repeats_rebuild {ty : TypeId} {parts : List TypeId} (hty : ty < st.size)
    (hparts : ∀ p ∈ parts, p < st.size) : (rebuild ty parts).Repeats st := by
  refine repeats_get_bind (builds_rebuild ty parts) (fun st' hle => by rw [shape_of_le hle hty]) ?_
  cases hs : (st.shape ty).withChildren? parts with
  | none => exact repeats_pure ty
  | some s =>
    have hs : ∀ c ∈ s.children, c < st.size := fun c hc =>
      hparts c (Shape.mem_of_withChildren? hs c hc)
    cases s with
    | qualified q base => exact repeats_qualify q (hs base List.mem_cons_self)
    | tuple items => exact repeats_tuple hs
    | _ => exact repeats_intern hs

/-- Replacing the variables of a type again.  As for its tree, the type and the replacements are those
of an earlier store. -/
theorem repeats_mapVars_from {f : TypeId → TypeId} {st₀ : Store} {ty : TypeId}
    (hf : ∀ v, v < st₀.size → f v < st₀.size) (hle : st₀ ≤ st) (hty : ty < st₀.size) :
    (mapVars f ty).Repeats st := by
  induction ty using Nat.strongRecOn generalizing st with
  | ind ty ih =>
    have hbuilds := builds_mapVars f ty
    rw [mapVars_eq] at hbuilds ⊢
    have hty' := lt_size_of_le hle hty
    refine repeats_get_bind hbuilds (fun st' hle' => ?_) ?_
    · rw [isGeneric_of_le hle' hty', isVar_of_le hle' hty', children_of_le hle' hty']
    have hloop := yields_mapChildren hf hle hty
    split
    · split
      · exact repeats_pure _
      · refine Repeats.bind (repeats_mapM _ (fun c => builds_mapVars f c) fun c hc st' hle' => ?_) ?_
          fun mapped => builds_ite (builds_pure _) (builds_rebuild _ _)
        · rw [children_of_le hle hty] at hc
          exact ih c (lt_of_mem_children hc) (le_trans hle hle') (lt_size_of_mem_children hty hc)
        · split
          · exact repeats_pure _
          · exact repeats_rebuild (lt_size_of_le hloop.steps.le hty') hloop.result.2
    · exact repeats_pure _

theorem repeats_substituteAll {mapping : List (TypeId × TypeId)} {ty : TypeId}
    (hmapping : ∀ p ∈ mapping, p.2 < st.size) (hty : ty < st.size) :
    (substituteAll mapping ty).Repeats st := by
  unfold substituteAll
  split
  · exact repeats_pure ty
  · exact repeats_mapVars_from (fun v => lookup_lt hmapping) le_rfl hty

end StoreM

/-- A description over types of the store is built once. -/
theorem Description.repeats_build {st : Store} (d : Description) (h : ∀ c ∈ d.parts, c < st.size) :
    d.build.Repeats st := by
  cases d with
  | pointer target => exact (StoreM.repeats_intern (s := .pointer target) h).map _
  | array elem length => exact (StoreM.repeats_intern (s := .array elem length) h).map _
  | tuple items => exact (StoreM.repeats_tuple h).map _
  | aggregate kind parts =>
    show (StoreM.aggregate kind parts).Repeats st
    unfold StoreM.aggregate
    split
    · next target => exact (StoreM.repeats_intern (s := .pointer target) h).map _
    · next elem => exact (StoreM.repeats_intern (s := .array elem none) h).map _
    · exact (StoreM.repeats_tuple h).map _
    · next ret params =>
      refine (StoreM.repeats_intern ?_).map _
      simpa [Shape.children, Signature.children, Description.parts] using h
    · exact StoreM.repeats_pure _
  | function sig => exact (StoreM.repeats_intern (s := .function sig) h).map _
  | namedVar name => exact (StoreM.repeats_intern (s := .var (.named name)) h).map _
  | traitType name subject args =>
    exact (StoreM.repeats_intern (s := .trait name subject args) h).map _
  | qualified qualifier base =>
    exact (StoreM.repeats_qualify qualifier (h base List.mem_cons_self)).map _

namespace Operation

open Store

/-- Every store that operations lead to holds each type once, over constituents that come before it
and carry no qualifiers of their own, with the primitives in front.  Further operations leave what
is known about a type as it is, so a description that was built is found again and nothing is
added. -/
theorem uniquing (ops : List Operation) :
    let st := runAll ops .new
    (∀ i j, i < st.size → j < st.size → st.shape i = st.shape j → i = j) ∧
    (∀ i, ∀ c ∈ st.children i, c < i) ∧
    (∀ i, (st.shape i).isQualified = false → ∀ c ∈ st.children i,
      (st.shape c).isQualified = false) ∧
    (∀ p : Prim, p.number < st.size ∧ st.shape p.number = .prim p) ∧
    (∀ more i, i < st.size → (runAll more st).shape i = st.shape i ∧
      (runAll more st).flagBits i = st.flagBits i ∧ (runAll more st).weight i = st.weight i) ∧
    (∀ d : Description, (∀ c ∈ d.parts, c < st.size) → ∀ more,
      let (result, built) := d.build st
      d.build (runAll more built) = (result, runAll more built)) := by
  intro st
  refine ⟨fun i j hi hj => eq_of_shape_eq hi hj, fun i c hc => lt_of_mem_children hc,
    fun i hq c hc => ?_, fun p => ⟨lt_size_of_prim p, shape_prim p⟩, fun more i hi => ?_,
    fun d hd more => ?_⟩
  · by_cases hi : i < st.size
    · rw [← bare_of_mem_children hi hq hc]
      exact isQualified_shape_bare st c
    · have hnone : st.children i = [] := by
        rw [show st.children i = (st.shape i).children from rfl, shape_of_ge (Nat.le_of_not_lt hi)]
        rfl
      rw [hnone] at hc
      cases hc
  · have hle := le_runAll more st
    exact ⟨shape_of_le hle hi, congrArg BitVec.toNat (flags_of_le hle hi), weight_of_le hle hi⟩
  · exact d.repeats_build hd _ (le_runAll more _)

/-- A pointer that is built, and built again after its target was qualified and a product of one
parameter was declared, instantiated and forgotten. -/
theorem uniquing_pointer :
    let d := Description.pointer TypeId.i32
    let st := runAll [.construct (.qualified .mutable TypeId.i32)] .new
    let later := runAll [.construct (.qualified .constant TypeId.i32), .freshVar,
      .declare .product "Box" ["t"], .instantiate 20 [TypeId.bool], .clearDeclared] (d.build st).2
    d.build later = ((d.build st).1, later) :=
  (uniquing [.construct (.qualified .mutable TypeId.i32)]).2.2.2.2.2 (.pointer TypeId.i32)
    (by simp [Description.parts, lt_size_of_prim])
    [.construct (.qualified .constant TypeId.i32), .freshVar, .declare .product "Box" ["t"],
      .instantiate 20 [TypeId.bool], .clearDeclared]

end Operation

end ConstraintTyping
