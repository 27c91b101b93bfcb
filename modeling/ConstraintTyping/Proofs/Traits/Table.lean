import ConstraintTyping.Proofs.Types.Building
import ConstraintTyping.Proofs.Types.Declaring
import ConstraintTyping.Proofs.Types.Tables
import ConstraintTyping.Traits.Operators

/-!
# Registering traits

A trait is declared as a type of its own and changes nothing that is declared otherwise.  Its methods
get function types over the types they are written with, so the error type is not in them unless it
was in those.
-/

namespace ConstraintTyping

open Store StoreM

namespace TraitTable

variable {t : TraitTable}

/-- The types of all methods have a property. -/
def MethodsHave (t : TraitTable) (P : TypeId → Prop) : Prop :=
  ∀ (owner : Name) (entry : TraitEntry) (name : Name) (ty : TypeId),
    t.traits[owner]? = some entry → entry.methods[name]? = some ty → P ty

theorem MethodsHave.mono {P Q : TypeId → Prop} (h : t.MethodsHave P) (hPQ : ∀ ty, P ty → Q ty) :
    t.MethodsHave Q :=
  fun owner entry name ty howner hname => hPQ ty (h owner entry name ty howner hname)

theorem MethodsHave.method {P : TypeId → Prop} {name : Name} {ty : TypeId} (h : t.MethodsHave P)
    (hm : t.method? name = some ty) : P ty := by
  simp only [method?, Option.bind_eq_bind, Option.bind_eq_some_iff] at hm
  obtain ⟨owner, -, entry, hentry, hty⟩ := hm
  exact h owner entry name ty hentry hty

end TraitTable

/-- Types are built and traits declared, and nothing else changes. -/
structure Store.AddsTraits (st st' : Store) : Prop where
  advances : st.Advances st'
  coherent : st'.Coherent
  bodies : st'.nominals.bodies = st.nominals.bodies
  variants : st'.nominals.variants = st.nominals.variants

namespace Store.AddsTraits

variable {st st' st'' : Store}

theorem refl (hco : st.Coherent) : st.AddsTraits st := ⟨.refl st, hco, rfl, rfl⟩

theorem trans (h : st.AddsTraits st') (h' : st'.AddsTraits st'') : st.AddsTraits st'' where
  advances := h.advances.trans h'.advances
  coherent := h'.coherent
  bodies := h'.bodies.trans h.bodies
  variants := h'.variants.trans h.variants

theorem of_nominals (hco : st.Coherent) (hle : st ≤ st') (hnom : st'.nominals = st.nominals) :
    st.AddsTraits st' :=
  ⟨.of_nominals hle hnom, hco.of_nominals hle hnom, by rw [hnom], by rw [hnom]⟩

theorem endsWell (h : st.AddsTraits st') : DeclM.EndsWell st st' := ⟨h.advances, h.coherent⟩

theorem declaring {declared : List TypeId} (h : st.AddsTraits st') (hst : st.Declaring declared) :
    st'.Declaring declared where
  coherent := h.coherent
  traced := h.advances.traced hst.traced
  variants key := by rw [h.variants]; exact hst.variants key
  bodies ty := by rw [h.bodies]; exact hst.bodies ty
  nodup := hst.nodup
  mem_iff := by
    intro d
    simp only [hst.mem_iff, h.advances.declared?]

end Store.AddsTraits

namespace StoreM

variable {st : Store}

/-- A trait type becomes its own declaration. -/
theorem addsTraits_traitDecl {d : TypeId} (hco : st.Coherent) (hd : d < st.size)
    (hkind : st.kind d = .trait) :
    st.AddsTraits { st with nominals.declOf := st.nominals.declOf.insert d d } := by
  have hdeclOf : ∀ ty : TypeId, (st.nominals.declOf.insert d d)[ty]? =
      if d = ty then some d else st.nominals.declOf[ty]? := fun ty => by
    simp [Std.HashMap.getElem?_insert]
  have hdeclares : ∀ {name d' k params},
      Store.Declares { st with nominals.declOf := st.nominals.declOf.insert d d } name d' k params ↔
        st.Declares name d' k params :=
    ⟨fun h => ⟨h.declared, h.shape⟩, fun h => ⟨h.declared, h.shape⟩⟩
  refine ⟨⟨fun _ _ h => h, rfl, fun _ h => h, fun _ h h' => ?_, fun h => h, fun {ty d'} h => ?_,
    fun hst => hst.of_le (le_refl st) rfl⟩, ?_, rfl, rfl⟩
  · rw [h] at h'
    cases h'
  · rw [hdeclOf] at h
    split at h
    · next heq => exact .inr ⟨heq ▸ hd, .inl (heq ▸ hkind)⟩
    · exact .inl h
  · constructor
    · intro name d' h
      obtain ⟨hself, k, params, hdecl, hvars⟩ := hco.declares h
      refine ⟨?_, k, params, hdeclares.mpr hdecl, hvars⟩
      rw [hdeclOf]
      split
      · next heq => rw [heq]
      · exact hself
    · intro d' args v h
      obtain ⟨hv, hargs, hshape⟩ := hco.variants h
      exact ⟨hv, hargs, fun name k params hd' => hshape name k params (hdeclares.mp hd')⟩
    · exact hco.bodies
    · intro name d' params body sum hd' hb hp
      obtain ⟨sumName, hsum⟩ := hco.parent (hdeclares.mp hd') hb hp
      exact ⟨sumName, hdeclares.mpr hsum⟩
    · intro name sum params tags tag hd' ht hmem
      obtain ⟨tagName, body, htag, hb, hp⟩ := hco.tags (hdeclares.mp hd') ht hmem
      exact ⟨tagName, body, hdeclares.mpr htag, hb, hp⟩

/-- Declaring a trait declares no product or sum. -/
theorem addsTraits_declareTrait (name : Name) (params : List Name) (hco : st.Coherent) :
    st.AddsTraits (declareTrait name params st).2 ∧
      (declareTrait name params st).2.Whole (declareTrait name params st).1 := by
  have hnames := builds_mapM (fun p => builds_intern (.var (.named p))) params st
  have hyields : (params.mapM namedVar).Yields st fun vs st' =>
      List.Forall₂ (fun _ v => st'.Whole v) params vs :=
    yields_mapM (fun _ _ _ _ hsteps h => h.of_le hsteps.le)
      fun p _ st' _ => (yields_namedVar p st').mono fun _ _ _ h =>
        ⟨h.1, by rw [h.2]; exact TypeTree.faultless_var _⟩
  have hvars := hyields.result
  have hwhole : ∀ v ∈ (params.mapM namedVar st).1, (params.mapM namedVar st).2.Whole v :=
    fun v hv => by
      obtain ⟨p, -, h⟩ := exists_mem_of_forall₂ hvars hv
      exact h
  generalize hrun : params.mapM namedVar st = r at hwhole
  have hnames : st ≤ r.2 ∧ r.2.nominals = st.nominals := hrun ▸ hnames
  let shape : Shape TypeId := .trait name (r.1.headD TypeId.unit) r.1.tail
  have hbelow : ∀ c ∈ shape.children, r.2.Whole c := by
    intro c hc
    simp only [shape, Shape.children, List.mem_cons] at hc
    rcases hc with rfl | hc
    · cases hvs : r.1 with
      | nil => exact whole_prim r.2 (p := .unit) (by decide)
      | cons v vs => exact hwhole v (hvs ▸ List.mem_cons_self)
    · exact hwhole c (List.mem_of_mem_tail hc)
  have htrait := builds_intern shape r.2
  have hd := whole_intern (s := shape) rfl rfl hbelow
  have hshape := (@yields_intern r.2 shape rfl fun c hc => (hbelow c hc).1).result.2
  have hle : st ≤ (intern shape r.2).2 := le_trans hnames.1 htrait.1
  have hnom : (intern shape r.2).2.nominals = st.nominals := htrait.2.trans hnames.2
  have heq : declareTrait name params st = ((intern shape r.2).1,
      { (intern shape r.2).2 with nominals.declOf :=
        (intern shape r.2).2.nominals.declOf.insert (intern shape r.2).1 (intern shape r.2).1 }) := by
    unfold declareTrait
    simp only [StateM.bind_apply, hrun]
    rfl
  rw [heq]
  have hdecl := addsTraits_traitDecl (hco.of_nominals hle hnom) hd.1
    (by rw [Store.kind, hshape]; rfl)
  exact ⟨(AddsTraits.of_nominals hco hle hnom).trans hdecl, hd.of_le hdecl.advances.le⟩

end StoreM

/-- The types of a method have a property. -/
def MethodSig.Have (m : MethodSig) (P : TypeId → Prop) : Prop := (∀ p ∈ m.params, P p) ∧ P m.ret

theorem MethodSig.Have.mono {m : MethodSig} {P Q : TypeId → Prop} (h : m.Have P)
    (hPQ : ∀ ty, P ty → Q ty) : m.Have Q :=
  ⟨fun p hp => hPQ p (h.1 p hp), hPQ _ h.2⟩

namespace TraitTable

variable {t : TraitTable} {st : Store}

/-- The function types of methods, each of which asks for the trait itself. -/
def methodTypes (decl : TypeId) (methods : List MethodSig) : StoreM (List (Name × TypeId)) :=
  methods.mapM fun m => do
    let ty ← StoreM.function { ret := m.ret, params := m.params, givens := [decl] }
    return (m.name, ty)

theorem builds_methodTypes (decl : TypeId) (methods : List MethodSig) :
    (methodTypes decl methods).Builds :=
  builds_mapM (fun _ => (builds_intern _).bind fun _ => builds_pure _) methods

/-- What is known of the type that a method gets: it is a function type, and the error type is not in
it unless it is in the types of a method. -/
structure IsMethodType (st : Store) (methods : List MethodSig) (st' : Store) (ty : TypeId) : Prop where
  lt_size : ty < st'.size
  function : (st'.tree ty).IsFunction
  not_qualified : (st'.shape ty).isQualified = false
  whole : (∀ m ∈ methods, m.Have st.Whole) → st'.Whole ty

theorem yields_methodTypes {decl : TypeId} (methods : List MethodSig) (hdecl : st.Whole decl)
    (hmethods : ∀ m ∈ methods, m.Have (· < st.size)) :
    (methodTypes decl methods).Yields st fun typed st' =>
      ∀ r ∈ typed, IsMethodType st methods st' r.2 := by
  have hchildren : ∀ (P : TypeId → Prop) (m : MethodSig), m.Have P → P decl →
      ∀ c ∈ ({ ret := m.ret, params := m.params, givens := [decl] } : Signature TypeId).children,
        P c := by
    intro P m hm hdecl c hc
    simp only [Signature.children, List.mem_cons, List.mem_append, List.not_mem_nil,
      or_false] at hc
    rcases hc with (rfl | hc) | rfl
    · exact hm.2
    · exact hm.1 c hc
    · exact hdecl
  refine (yields_mapM (P := fun _ r st' => IsMethodType st methods st' r.2) ?_ ?_).mono ?_
  · intro m r st₁ st₂ hsteps h
    exact ⟨lt_size_of_le hsteps.le h.lt_size, by rw [tree_of_le hsteps.le h.lt_size]; exact h.function,
      by rw [shape_of_le hsteps.le h.lt_size]; exact h.not_qualified,
      fun hwhole => (h.whole hwhole).of_le hsteps.le⟩
  · intro m hm st' hsteps
    have hwithin := (hmethods m hm).mono fun _ h => lt_size_of_le hsteps.le h
    have hfun := yields_function (hchildren _ m hwithin (hdecl.of_le hsteps.le).1)
    refine ⟨hfun.steps, hfun.result.1, ⟨_, hfun.result.2⟩, isQualified_intern rfl, fun hwhole => ?_⟩
    exact whole_intern (s := .function _) rfl rfl (hchildren _ m
      ((hwhole m hm).mono fun _ h => h.of_le hsteps.le) (hdecl.of_le hsteps.le))
  · intro typed st' _ htyped r hr
    obtain ⟨m, -, h⟩ := exists_mem_of_forall₂ htyped hr
    exact h

/-- A trait that is accepted: it is declared, and its methods get their types. -/
theorem register_accepted {name : Name} {params : List Name} (methods : List MethodSig) (st : Store)
    (hname : t.traits.contains name = false) (hparams : params.isEmpty = false) :
    t.register name params methods st =
      let d := declareTrait name params st
      let typed := methodTypes d.1 methods d.2
      (.ok (d.1, { t with
        traits := t.traits.insert name
          { name, decl := d.1, params, methods := Std.HashMap.ofList typed.1 }
        methodOwners := typed.1.foldl (fun owners m => owners.insert m.1 name) t.methodOwners }),
        typed.2) := by
  unfold register
  rw [if_neg (by simp [hname]), if_neg (by simp [hparams])]
  rfl

/-- Registering a trait declares it and gives types to its methods; the other methods of the table
stay. -/
theorem addsTraits_register (t : TraitTable) (name : Name) (params : List Name)
    (methods : List MethodSig) (hco : st.Coherent) (hmethods : ∀ m ∈ methods, m.Have (· < st.size)) :
    let run := t.register name params methods st
    st.AddsTraits run.2 ∧ ∀ r, run.1 = .ok r → ∀ P : TypeId → Prop, t.MethodsHave P →
      (methods ≠ [] → ∀ ty, IsMethodType st methods run.2 ty → P ty) → r.2.MethodsHave P := by
  intro run
  cases hname : t.traits.contains name with
  | true =>
    have hrun : run = (.error (.duplicate name), st) := by
      unfold run register
      rw [if_pos hname]
      rfl
    rw [hrun]
    exact ⟨.refl hco, fun r hr => by cases hr⟩
  | false =>
  cases hparams : params.isEmpty with
  | true =>
    have hrun : run = (.error (.argCount 1 0), st) := by
      unfold run register
      rw [if_neg (by simp [hname]), if_pos hparams]
      rfl
    rw [hrun]
    exact ⟨.refl hco, fun r hr => by cases hr⟩
  | false =>
  have hrun : run = _ := register_accepted methods st hname hparams
  obtain ⟨hadds, hdecl⟩ := addsTraits_declareTrait name params hco
  have hle := hadds.advances.le
  have hbuilds := builds_methodTypes (declareTrait name params st).1 methods
    (declareTrait name params st).2
  have htyped := (yields_methodTypes methods hdecl fun m hm =>
    (hmethods m hm).mono fun _ h => lt_size_of_le hle h).result
  rw [hrun]
  refine ⟨hadds.trans (.of_nominals hadds.coherent hbuilds.1 hbuilds.2), ?_⟩
  rintro r hr P hP hnew owner entry m ty howner hm
  obtain rfl := (Except.ok.inj hr).symm
  rw [Std.HashMap.getElem?_insert] at howner
  split at howner
  · obtain rfl := Option.some.inj howner
    rw [ofList_eq_enterAll] at hm
    have hmem := (mem_of_getElem?_enterAll hm).resolve_right (by simp)
    obtain ⟨hlt, hfunction, hqualified, hwhole⟩ := htyped _ hmem
    refine hnew ?_ ty ⟨hlt, hfunction, hqualified, fun hmethods => hwhole fun m hm =>
      (hmethods m hm).mono fun _ h => h.of_le hle⟩
    rintro rfl
    cases hmem
  · exact hP owner entry m ty howner hm

theorem builds_obligation (t : TraitTable) (name : Name) (subject : TypeId) (args : List TypeId) :
    (t.obligation name subject args).Builds := by
  unfold obligation
  split
  · exact builds_pure _
  · exact builds_ite ((builds_intern _).bind fun _ => builds_pure _) (builds_pure _)

/-- An obligation that is not refused is the trait type that is asked for. -/
theorem obligation_of_ok {name : Name} {subject ty : TypeId} {args : List TypeId}
    (h : (t.obligation name subject args st).1 = .ok ty) :
    t.obligation name subject args st = (.ok ty, (traitType name subject args st).2) ∧
      ty = (traitType name subject args st).1 := by
  cases hentry : t.trait? name with
  | none =>
    have hrun : t.obligation name subject args st = (.error (.unknown name), st) := by
      unfold obligation
      rw [hentry]
      rfl
    rw [hrun] at h
    cases h
  | some entry =>
    by_cases hlen : entry.params.length = args.length + 1
    · have hrun : t.obligation name subject args st =
          (.ok (traitType name subject args st).1, (traitType name subject args st).2) := by
        unfold obligation
        simp only [hentry, if_pos hlen]
        rfl
      rw [hrun] at h ⊢
      obtain rfl := Except.ok.inj h
      exact ⟨rfl, rfl⟩
    · have hrun : t.obligation name subject args st =
          (.error (.argCount entry.params.length (args.length + 1)), st) := by
        unfold obligation
        simp only [hentry, if_neg hlen]
        rfl
      rw [hrun] at h
      cases h

theorem obligation_spec {name : Name} {subject ty : TypeId} {args : List TypeId}
    (h : (t.obligation name subject args st).1 = .ok ty) (hargs : ∀ a ∈ subject :: args, a < st.size) :
    ty < (t.obligation name subject args st).2.size ∧
      (t.obligation name subject args st).2.tree ty =
        .mk (.trait name (st.tree subject) (args.map st.tree)) := by
  obtain ⟨hrun, rfl⟩ := obligation_of_ok h
  rw [hrun]
  exact (yields_build (s := .trait name subject args) rfl hargs).result

/-! ### Operators -/

/-- No trait of a table has a method. -/
def NoMethods (t : TraitTable) : Prop := t.MethodsHave fun _ => False

/-- The names of the operator traits. -/
def operatorTraitNames : List Name := operatorTraits.map Prod.fst

/-- Nothing is declared, no trait has a method, and only operator traits are there. -/
structure Initial (t : TraitTable) (st : Store) : Prop where
  declaring : st.Declaring []
  noMethods : t.NoMethods
  traits : ∀ name, t.traits.contains name = true → name ∈ operatorTraitNames
  impls : ∀ entry ∈ t.impls.toList, entry.traitName ∈ operatorTraitNames

/-- What every step of a fold keeps, the fold keeps. -/
theorem foldlM_keeps {α : Type} {I : TraitTable → Store → Prop}
    {f : TraitTable → α → StoreM TraitTable} (xs : List α) (h : I t st)
    (hf : ∀ t st, ∀ x ∈ xs, I t st → I (f t x st).1 (f t x st).2) :
    I (xs.foldlM f t st).1 (xs.foldlM f t st).2 := by
  induction xs generalizing t st with
  | nil => exact h
  | cons x xs ih =>
    rw [List.foldlM_cons, StateM.bind_apply]
    exact ih (hf t st x List.mem_cons_self h) fun t st y hy => hf t st y (List.mem_cons_of_mem x hy)

theorem Initial.of_builds {α : Type} {act : StoreM α} (h : t.Initial st) (hact : act.Builds) :
    t.Initial (act st).2 :=
  ⟨h.declaring.of_nominals (hact st).1 (hact st).2, h.noMethods, h.traits, h.impls⟩

theorem Initial.addImpl (h : t.Initial st) (ty : TypeId) {name : Name} (span : Span)
    (hname : name ∈ operatorTraitNames) : (t.addImpl ty name span).Initial st := by
  refine ⟨h.declaring, h.noMethods, h.traits, fun entry hentry => ?_⟩
  change entry ∈ (t.impls.push _).toList at hentry
  rw [Array.toList_push, List.mem_append, List.mem_singleton] at hentry
  rcases hentry with hentry | rfl
  · exact h.impls entry hentry
  · exact hname

/-- An operator trait is registered, if its name is free. -/
theorem Initial.register (h : t.Initial st) {name : Name} (hname : name ∈ operatorTraitNames)
    {r : TypeId × TraitTable} (hr : (t.register name [subjectParam] [] st).1 = .ok r) :
    r.2.Initial (t.register name [subjectParam] [] st).2 := by
  have hadds := t.addsTraits_register name [subjectParam] [] h.declaring.coherent (by simp)
  have hmethods := hadds.2 r hr _ h.noMethods fun hne => absurd rfl hne
  cases hfree : t.traits.contains name with
  | true =>
    rw [TraitTable.register, if_pos hfree] at hr
    cases hr
  | false =>
    rw [register_accepted [] st hfree rfl] at hr
    obtain rfl := Except.ok.inj hr
    refine ⟨hadds.1.declaring h.declaring, hmethods, fun other hother => ?_, h.impls⟩
    rw [Std.HashMap.contains_insert, Bool.or_eq_true, beq_iff_eq] at hother
    rcases hother with rfl | hother
    · exact hname
    · exact h.traits other hother

theorem initial_addOperator {name : Name} (prims : List Prim) (h : t.Initial st)
    (hname : name ∈ operatorTraitNames) :
    (t.addOperator name prims st).1.Initial (t.addOperator name prims st).2 := by
  have hst := (t.addsTraits_register name [subjectParam] [] h.declaring.coherent (by simp)).1.declaring
    h.declaring
  have hok : ∀ r, (t.register name [subjectParam] [] st).1 = .ok r →
      r.2.Initial (t.register name [subjectParam] [] st).2 := fun r => h.register hname
  unfold addOperator
  rw [StateM.bind_apply]
  generalize t.register name [subjectParam] [] st = run at hst hok ⊢
  obtain ⟨result, st'⟩ := run
  cases result with
  | ok r =>
    refine foldlM_keeps (I := Initial) prims (hok r rfl) fun t st p _ h => ?_
    exact (h.of_builds (builds_intern _)).addImpl _ Span.none hname
  | error e =>
    refine foldlM_keeps (I := Initial) prims ⟨hst, h.noMethods, h.traits, h.impls⟩ fun t st p _ h => ?_
    exact (h.of_builds (builds_intern _)).addImpl _ Span.none hname

/-- The operator traits are added in a loop over pairs, which `addOperator` takes apart. -/
theorem operators_eq : operators = (do
    let t ← operatorTraits.foldlM (fun t op => addOperator t op.1 op.2) {}
    let pointee ← StoreM.namedVar subjectParam
    let anyPointer ← StoreM.pointer pointee
    let ty ← StoreM.traitType "Eq" anyPointer []
    return t.addImpl ty "Eq" Span.none) :=
  rfl

/-- The table of the operator traits leaves the declarations empty. -/
theorem initial_operators : (operators Store.new).1.Initial (operators Store.new).2 := by
  have hnew : Initial {} Store.new :=
    ⟨declaring_new, fun owner entry name ty h => by simp at h, by simp, by simp⟩
  have hloop : (operatorTraits.foldlM (fun t op => addOperator t op.1 op.2) {} Store.new).1.Initial
      (operatorTraits.foldlM (fun t op => addOperator t op.1 op.2) {} Store.new).2 := by
    refine foldlM_keeps (I := Initial) operatorTraits hnew fun t st op hop h => ?_
    exact initial_addOperator op.2 h (List.mem_map_of_mem hop)
  rw [operators_eq, StateM.bind_apply]
  generalize operatorTraits.foldlM (fun t op => addOperator t op.1 op.2) {} Store.new = r at hloop ⊢
  simp only [StateM.bind_apply, StateM.pure_apply]
  refine Initial.addImpl ?_ _ Span.none (by decide)
  exact ((hloop.of_builds (builds_intern _)).of_builds (builds_intern _)).of_builds (builds_intern _)

end TraitTable

end ConstraintTyping
