import ConstraintTyping.Check.TypedModule
import ConstraintTyping.Proofs.Check.Register

/-!
# Types that are used at fresh variables

A method is used, and an implementation is matched, with fresh variables in the place of its own.  The
types of methods and implementations are no variables and have no qualifiers, so that such a copy has
the form of the type that is copied.
-/

namespace ConstraintTyping

open Store StoreM TypeTree

/-- A type of a store that is no variable and has no qualifiers. -/
structure Store.IsScheme (st : Store) (ty : TypeId) : Prop where
  lt_size : ty < st.size
  not_var : st.isVar ty = false
  not_qualified : (st.shape ty).isQualified = false

namespace Store.IsScheme

variable {st st' : Store} {ty : TypeId}

theorem of_le (h : st.IsScheme ty) (hle : st ≤ st') : st'.IsScheme ty where
  lt_size := lt_size_of_le hle h.lt_size
  not_var := by rw [isVar_of_le hle h.lt_size, h.not_var]
  not_qualified := by rw [shape_of_le hle h.lt_size, h.not_qualified]

theorem of_tree {s : Shape TypeTree} (hlt : ty < st.size) (hq : (st.shape ty).isQualified = false)
    (htree : st.tree ty = .mk s) (hs : s.isVar = false) : st.IsScheme ty where
  lt_size := hlt
  not_var := by
    rw [tree_of_not_qualified hq] at htree
    rw [Store.isVar, ← Shape.isVar_map st.tree, TypeTree.mk.inj htree, hs]
  not_qualified := hq

end Store.IsScheme

namespace TraitTable

variable {t : TraitTable} {st st' : Store}

/-- The types of methods and implementations are schemes. -/
structure HasSchemes (t : TraitTable) (st : Store) : Prop where
  methods : t.MethodsHave st.IsScheme
  impls : ∀ e ∈ t.impls.toList, st.IsScheme e.ty

theorem HasSchemes.of_le (h : t.HasSchemes st) (hle : st ≤ st') : t.HasSchemes st' where
  methods := h.methods.mono fun _ hty => hty.of_le hle
  impls e he := (h.impls e he).of_le hle

theorem HasSchemes.addImpl {ty : TypeId} (h : t.HasSchemes st) (hty : st.IsScheme ty) (name : Name)
    (span : Span) : (t.addImpl ty name span).HasSchemes st where
  methods := h.methods
  impls e he := by
    change e ∈ (t.impls.push _).toList at he
    rw [Array.toList_push, List.mem_append, List.mem_singleton] at he
    rcases he with he | rfl
    · exact h.impls e he
    · exact hty

theorem isScheme_traitType {subject : TypeId} {args : List TypeId} (name : Name)
    (hargs : ∀ a ∈ subject :: args, a < st.size) :
    (traitType name subject args st).2.IsScheme (traitType name subject args st).1 := by
  obtain ⟨-, hlt, htree⟩ := @yields_build st (.trait name subject args) rfl hargs
  exact .of_tree hlt (isQualified_intern rfl) htree rfl

theorem impls_register {name : Name} {params : List Name} {methods : List MethodSig}
    {r : TypeId × TraitTable} (h : (t.register name params methods st).1 = .ok r) :
    r.2.impls = t.impls := by
  cases hname : t.traits.contains name with
  | true =>
    rw [register, if_pos hname] at h
    cases h
  | false =>
  cases hparams : params.isEmpty with
  | true =>
    rw [register, if_neg (by simp [hname]), if_pos hparams] at h
    cases h
  | false =>
    rw [register_accepted methods st hname hparams] at h
    rw [← Except.ok.inj h]

/-- Registering a trait gives its methods function types. -/
theorem HasSchemes.register (h : t.HasSchemes st) (hco : st.Coherent) {name : Name}
    {params : List Name} {methods : List MethodSig} (hmethods : ∀ m ∈ methods, m.Have (· < st.size))
    {r : TypeId × TraitTable} (hr : (t.register name params methods st).1 = .ok r) :
    r.2.HasSchemes (t.register name params methods st).2 := by
  obtain ⟨hadds, hentries⟩ := t.addsTraits_register name params methods hco hmethods
  have hle := hadds.advances.le
  refine ⟨hentries r hr _ (h.methods.mono fun _ hty => hty.of_le hle) fun _ ty hty => ?_, ?_⟩
  · obtain ⟨sig, hsig⟩ := hty.function
    exact .of_tree hty.lt_size hty.not_qualified hsig rfl
  · rw [impls_register hr]
    exact fun e he => (h.impls e he).of_le hle

/-! ### Operators -/

theorem hasSchemes_addOperator {name : Name} (prims : List Prim) (h : t.HasSchemes st)
    (hco : st.Coherent) : (t.addOperator name prims st).1.HasSchemes (t.addOperator name prims st).2 := by
  have hadds := (t.addsTraits_register name [subjectParam] [] hco (by simp)).1
  have hold := h.of_le hadds.advances.le
  have hok : ∀ r, (t.register name [subjectParam] [] st).1 = .ok r →
      r.2.HasSchemes (t.register name [subjectParam] [] st).2 := fun r => h.register hco (by simp)
  have himpl : ∀ (t : TraitTable) (st : Store) (p : Prim), t.HasSchemes st →
      (t.addImpl (traitType name (TypeId.ofPrim p) [] st).1 name Span.none).HasSchemes
        (traitType name (TypeId.ofPrim p) [] st).2 := fun t st p h =>
    (h.of_le (builds_intern _ st).1).addImpl
      (isScheme_traitType name (List.forall_mem_singleton.mpr (lt_size_of_prim p))) _ _
  unfold addOperator
  rw [StateM.bind_apply]
  generalize t.register name [subjectParam] [] st = run at hold hok ⊢
  obtain ⟨result, st'⟩ := run
  cases result with
  | ok r => exact foldlM_keeps prims (hok r rfl) fun t st p _ => himpl t st p
  | error e => exact foldlM_keeps prims hold fun t st p _ => himpl t st p

theorem hasSchemes_operators : (operators Store.new).1.HasSchemes (operators Store.new).2 := by
  have hnew : Initial {} Store.new :=
    ⟨declaring_new, fun owner entry name ty h => by simp at h, by simp, by simp⟩
  have hloop := foldlM_keeps (I := fun t st => t.HasSchemes st ∧ t.Initial st)
    (f := fun t op => addOperator t op.1 op.2) operatorTraits
    ⟨⟨fun owner entry name ty h => by simp at h, by simp⟩, hnew⟩ fun t st op hop h =>
      ⟨hasSchemes_addOperator op.2 h.1 h.2.declaring.coherent,
        initial_addOperator op.2 h.2 (List.mem_map_of_mem hop)⟩
  rw [operators_eq, StateM.bind_apply]
  generalize operatorTraits.foldlM (fun t op => addOperator t op.1 op.2) {} Store.new = r at hloop ⊢
  simp only [StateM.bind_apply, StateM.pure_apply]
  have hvar := @intern_spec r.2 (.var (.named subjectParam)) (by simp [Shape.children])
  have hpointer := @intern_spec (namedVar subjectParam r.2).2
    (.pointer (namedVar subjectParam r.2).1) (List.forall_mem_singleton.mpr hvar.1)
  refine HasSchemes.addImpl (hloop.1.of_le ?_) (isScheme_traitType _ ?_) _ _
  · exact ((builds_intern _ _).1.trans (builds_intern _ _).1).trans (builds_intern _ _).1
  · exact List.forall_mem_singleton.mpr hpointer.1

end TraitTable

/-! ## Registration -/

namespace CheckM

open CheckState TraitTable

variable {s : CheckState}

theorem more_registerTypes (types : List TypeDecl) (h : s.store.Declaring []) :
    Ends (registerTypes types) s fun _ s' => s.store.DeclaresMore s'.store :=
  (ends_mapM_declare PendingType.ids PendingType.Fits types h
    (fun _ _ _ hmore hfits => hfits.of_more hmore)
    fun d _ _ _ _ hs' => ends_declareType d hs').bind fun _ _ ⟨hdecl, hfits⟩ =>
      (ends_defineTypes _ hdecl.declaring.defining hfits).mono fun _ _ hdefines =>
        hdecl.more.trans hdefines.more

theorem hasSchemes_registerTrait (d : TraitDecl) (h : s.Registered) (ht : s.traits.HasSchemes s.store) :
    Ends (registerTrait d) s fun _ s' => s'.traits.HasSchemes s'.store := by
  refine (ends_mapM (P := fun _ sig s' => sig.Have s'.Sound) d.methods h.coherent
    (fun _ _ _ _ hadv h => h.mono fun _ hty => hty.of_advances hadv)
    fun m _ s' hs' => ends_methodSig m hs'.coherent).bind ?_
  rintro methods s₁ ⟨hadv, hmethods⟩
  have hwithin : ∀ m ∈ methods, m.Have (· < s₁.store.size) := fun m hm => by
    obtain ⟨_, -, h⟩ := exists_mem_of_forall₂ hmethods hm
    exact h.mono fun _ hty => hty.1
  have ht₁ : s₁.traits.HasSchemes s₁.store := by
    rw [hadv.traits]
    exact ht.of_le hadv.store.le
  refine ends_get_bind (Ends.bind (Q := fun r s' =>
    r = (s₁.traits.register d.name d.params methods s₁.store).1 ∧
    s' = { s₁ with store := (s₁.traits.register d.name d.params methods s₁.store).2 })
    (ends_build ⟨rfl, rfl⟩) ?_)
  rintro result s₂ ⟨hresult, rfl⟩
  cases result with
  | error e =>
    exact ht₁.of_le (s₁.traits.addsTraits_register d.name d.params methods hadv.coherent
      hwithin).1.advances.le
  | ok r => exact ht₁.register hadv.coherent hwithin hresult.symm

theorem isScheme_obligation {t : TraitTable} {st : Store} {name : Name} {subject ty : TypeId}
    {args : List TypeId} (h : (t.obligation name subject args st).1 = .ok ty)
    (hargs : ∀ a ∈ subject :: args, a < st.size) :
    (t.obligation name subject args st).2.IsScheme ty := by
  obtain ⟨hrun, rfl⟩ := obligation_of_ok h
  rw [hrun]
  exact isScheme_traitType name hargs

/-- What a reference to a trait stands for is a scheme. -/
theorem isScheme_resolveTraitRef (explain : TraitError → TypeFault) (r : TraitRef)
    (hco : s.store.Coherent) :
    Ends (resolveTraitRef explain r) s fun made s' => ∀ o ∈ made, s'.store.IsScheme o := by
  refine (ends_resolveEach r.args r.span hco rfl).bind ?_
  rintro tys s₁ ⟨-, htys⟩
  cases tys with
  | nil => exact fun o ho => by cases ho
  | cons subject args =>
    refine ends_get_bind (Ends.bind (Q := fun o s' =>
      o = (s₁.traits.obligation r.traitName subject args s₁.store).1 ∧
      s' = { s₁ with store := (s₁.traits.obligation r.traitName subject args s₁.store).2 })
      (ends_build ⟨rfl, rfl⟩) ?_)
    rintro result s₂ ⟨hresult, rfl⟩
    cases result with
    | error e => exact fun o ho => by cases ho
    | ok o =>
      refine ends_pure fun o' ho' => ?_
      obtain rfl := Option.some.inj ho'
      refine isScheme_obligation hresult.symm fun a ha => ?_
      obtain ⟨w, -, h⟩ := exists_mem_of_forall₂ htys ha
      exact h.1

theorem hasSchemes_registerImpl (d : TraitRef) (h : s.Registered) (ht : s.traits.HasSchemes s.store) :
    Ends (registerImpl d) s fun _ s' => s'.traits.HasSchemes s'.store := by
  have hboth : Ends (resolveTraitRef (traitFault · d.traitName d.span) d) s fun made s' =>
      s.Advances s' ∧ ∀ o ∈ made, s'.store.IsScheme o :=
    ⟨(ends_resolveTraitRef _ d h.coherent rfl).1, isScheme_resolveTraitRef _ d h.coherent⟩
  refine hboth.bind ?_
  rintro made s₁ ⟨hadv, hmade⟩
  have ht₁ : s₁.traits.HasSchemes s₁.store := by
    rw [hadv.traits]
    exact ht.of_le hadv.store.le
  cases made with
  | none => exact ends_pure ht₁
  | some ty => exact ends_modify (ht₁.addImpl (hmade ty rfl) d.traitName d.span)

/-- The table of traits that a check works with has schemes. -/
theorem hasSchemes_register (m : Module) (h : s.store.Declaring []) (ht : s.traits.NoMethods)
    (hs : s.traits.HasSchemes s.store) :
    Ends (do
      registerTypes m.types
      m.traits.forM registerTrait
      m.impls.forM registerImpl) s fun _ s' => s'.traits.HasSchemes s'.store := by
  have hboth : Ends (registerTypes m.types) s fun _ s' =>
      s'.Registered ∧ s'.traits.HasSchemes s'.store := by
    obtain ⟨hsame, hdef, hfaultless⟩ := ends_registerTypes m.types h
    refine ⟨⟨hdef.coherent, hdef.complete, hdef.traced, ?_, hfaultless⟩, ?_⟩ <;> rw [hsame.traits]
    · exact ht.mono fun _ => False.elim
    · exact hs.of_le (more_registerTypes m.types h).le
  refine (hboth.bind fun _ s₁ hs₁ => (ends_forM
    (I := fun s' => s'.Registered ∧ s'.traits.HasSchemes s'.store) m.traits hs₁ ?_).bind
      fun _ s₂ hs₂ => ends_forM m.impls hs₂ ?_).mono fun _ _ h => h.2
  · exact fun d _ s' hs' => ⟨(ends_registerTrait d hs'.1).1, hasSchemes_registerTrait d hs'.1 hs'.2⟩
  · exact fun d _ s' hs' => ⟨(ends_registerImpl d hs'.1).1, hasSchemes_registerImpl d hs'.1 hs'.2⟩

end CheckM

end ConstraintTyping
