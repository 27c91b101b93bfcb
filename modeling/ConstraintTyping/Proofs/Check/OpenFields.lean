import ConstraintTyping.Proofs.Check.DeclaredTypes
import ConstraintTyping.Proofs.Check.Registered
import ConstraintTyping.Proofs.Renaming.Renamed

/-!
# Type variables in the fields of declared types

The parameters of a declared type are put in for the arguments when the type is used.  A type variable
in a field that is no parameter stays as it is.  Such variables are those that are written so, also
where a declaration is refused.
-/

namespace ConstraintTyping

open TypeTree

theorem TypeTree.exists_mem_of_occurs_tuple {items : List TypeTree} {x : VarIdent}
    (h : (TypeTree.tuple items).Occurs x) : ∃ t ∈ items, t.Occurs x := by
  unfold TypeTree.tuple at h
  split at h
  · simp [occurs_mk, Shape.varIdent?, Shape.children] at h
  · simpa [occurs_mk, Shape.varIdent?, Shape.children] using h

namespace Declarations

variable {D : Declarations} {w : TypeExpr} {t : TypeTree} {x : VarIdent}

/-- The variables of a written type are those that are written in it. -/
theorem Denotes.occurs (h : D.Denotes TypeTree.var w t) (hx : t.Occurs x) : ∃ n ∈ w.varNames, x = .named n := by
  have hlist : ∀ {ws ts}, List.Forall₂ (D.Denotes TypeTree.var) ws ts → (∀ w ∈ ws, ∀ {t},
      D.Denotes TypeTree.var w t → t.Occurs x → ∃ n ∈ w.varNames, x = .named n) →
      ∀ t ∈ ts, t.Occurs x → ∃ n ∈ varNamesOf ws, x = .named n := by
    intro ws ts hts ih t ht hx
    obtain ⟨w, hw, hden⟩ := exists_mem_of_forall₂ hts ht
    obtain ⟨n, hn, hxn⟩ := ih w hw hden hx
    exact ⟨n, mem_varNamesOf.mpr ⟨w, hw, hn⟩, hxn⟩
  induction w using TypeExpr.induction generalizing t with
  | named name args ih =>
    cases h with
    | prim hp => simp [occurs_mk, Shape.varIdent?, Shape.children] at hx
    | @declared _ k _ trees hname hdecl hargs =>
      rw [occurs_mk, DeclKind.children_shape] at hx
      rcases hx with hx | ⟨c, hc, hx⟩
      · cases k <;> cases hx
      · exact hlist hargs ih c hc hx
  | var name =>
    cases h
    obtain rfl := occurs_var.mp hx
    exact ⟨name, List.mem_singleton_self _, rfl⟩
  | pointer target ih =>
    cases h with
    | pointer h =>
      simp only [occurs_mk, Shape.varIdent?, Shape.children] at hx
      exact ih h (by simpa using hx)
  | array elem length ih =>
    cases h with
    | array h =>
      simp only [occurs_mk, Shape.varIdent?, Shape.children] at hx
      exact ih h (by simpa using hx)
  | tuple items ih =>
    cases h with
    | tuple h =>
      obtain ⟨t, ht, hx⟩ := exists_mem_of_occurs_tuple hx
      exact hlist h ih t ht hx
  | function params ret ihs ih =>
    cases h with
    | function hparams hret =>
      obtain hvar | ⟨c, hc, hxc⟩ := occurs_mk.mp hx
      · cases hvar
      · simp only [Shape.children, Signature.children, List.append_nil, List.mem_cons] at hc
        rcases hc with rfl | hc
        · obtain ⟨n, hn, hxn⟩ := ih hret hxc
          exact ⟨n, List.mem_append_right _ hn, hxn⟩
        · obtain ⟨n, hn, hxn⟩ := hlist hparams ihs c hc hxc
          exact ⟨n, List.mem_append_left _ hn, hxn⟩
  | qualified q base ih => cases h with | qualified h => exact ih h hx

end Declarations

/-! ## Stores -/

namespace Store

variable {st st' : Store} {V : Set Name} {params : List TypeId} {name : Name} {d ty f : TypeId}
  {b : Body}

/-- The named variables of a field are parameters, or open. -/
structure OpenField (V : Set Name) (st : Store) (params : List TypeId) (f : TypeId) : Prop where
  lt_size : f < st.size
  named : ∀ n, (st.tree f).Occurs (.named n) → .named n ∈ st.idents params ∨ n ∈ V

theorem OpenField.of_le (h : st.OpenField V params f) (hle : st ≤ st')
    (hparams : ∀ p ∈ params, p < st.size) : st'.OpenField V params f where
  lt_size := lt_size_of_le hle h.lt_size
  named n hn := by
    rw [tree_of_le hle h.lt_size] at hn
    rw [idents_of_le hle hparams]
    exact h.named n hn

/-- The named variables in the fields of declared products are parameters, or open. -/
structure OpenWithin (V : Set Name) (st : Store) : Prop where
  fields : ∀ {name : Name} {d : TypeId} {params : List TypeId} {body : ProductBody},
    st.Declares name d .product params → st.productBody? d = some body →
      ∀ f ∈ body.fields, st.OpenField V params f

namespace OpenWithin

theorem of_declaring {declared : List TypeId} (h : st.Declaring declared) : st.OpenWithin V := by
  refine ⟨fun {name d params body} _ hbody => ?_⟩
  rw [productBody?_eq_some, h.bodies] at hbody
  cases hbody

/-- A body that comes to a declaration late is empty. -/
theorem of_advances (h : st.OpenWithin V) (hco : st.Coherent) (hadv : st.Advances st') :
    st'.OpenWithin V := by
  refine ⟨fun {name d params body} hd hbody f hf => ?_⟩
  have hd₀ := hadv.declares_of hco hd
  rw [productBody?_eq_some] at hbody
  cases hold : st.nominals.bodies[d]? with
  | some b =>
    obtain rfl := Option.some.inj ((hadv.bodies hd₀.declared hold).symm.trans hbody)
    exact (h.fields hd₀ (productBody?_eq_some.mpr hold) f hf).of_le hadv.le hd₀.params_lt
  | none =>
    cases hadv.late hd₀ hold hbody
    cases hf

theorem setBody (h : st.OpenWithin V)
    (hb : ∀ {name : Name} {params : List TypeId} {body : ProductBody},
      st.Declares name ty .product params → b = .product body →
        ∀ f ∈ body.fields, st.OpenField V params f) : (st.setBody ty b).OpenWithin V := by
  refine ⟨fun {name d params body} hd hbody f hf => ?_⟩
  have hsame := sameButBodies_setBody st ty b
  have hd₀ := hsame.declares.mp hd
  rw [productBody?_eq_some, bodies_setBody] at hbody
  suffices hfield : st.OpenField V params f from hfield.of_le hsame.le hd₀.params_lt
  split at hbody
  · next heq => exact hb (heq ▸ hd₀) (Option.some.inj hbody) f hf
  · exact h.fields hd₀ (productBody?_eq_some.mpr hbody) f hf

theorem bindParent (h : st.OpenWithin V) (tag sum : TypeId) :
    (st.bindParent tag sum).OpenWithin V := by
  refine ⟨fun {name d params body} hd hbody f hf => ?_⟩
  have hsame := sameButBodies_bindParent st tag sum
  have hd₀ := hsame.declares.mp hd
  obtain ⟨old, hold, hfields, -⟩ := productBody?_bindParent hbody
  rw [hfields] at hf
  exact (h.fields hd₀ hold f hf).of_le hsame.le hd₀.params_lt

end OpenWithin

/-- The type variables that are written in fields are variables of parameters, or open. -/
def FieldsWithin (V : Set Name) (st : Store) (params : List TypeId) (fields : List FieldDecl) : Prop :=
  ∀ f ∈ fields, ∀ n ∈ f.written.varNames, .named n ∈ st.idents params ∨ n ∈ V

theorem FieldsWithin.of_le {fields : List FieldDecl} (h : FieldsWithin V st params fields)
    (hle : st ≤ st') (hparams : ∀ p ∈ params, p < st.size) : FieldsWithin V st' params fields := by
  rw [FieldsWithin, idents_of_le hle hparams]
  exact h

theorem Names.idents {names : List Name} (h : st.Names names params) :
    st.idents params = names.map .named := by
  induction h with
  | nil => rfl
  | cons hp _ ih =>
    rw [Store.idents, List.filterMap_cons, hp]
    exact congrArg _ ih

end Store

open Store StoreM

namespace DeclM

variable {st : Store} {V : Set Name} {ty sum : TypeId}

/-- Tags that are bound up to a refused one keep what each binding keeps. -/
theorem gives_bindTags_keeps {I : Store → Prop} (tags : List TypeId)
    (hI : ∀ st tag, I st → I (st.bindParent tag sum)) (h : I st) :
    Gives (tags.forM (bindTag sum)) st I fun _ => I := by
  induction tags generalizing st with
  | nil => exact gives_pure h
  | cons tag tags ih =>
    refine Gives.bind (Q := fun _ => I) ?_ fun _ _ hst => ih hst
    refine gives_get_bind ?_
    refine gives_refuse_bind (fun _ => h) fun _ => ?_
    refine gives_refuse_bind (fun _ => h) fun _ => ?_
    refine gives_refuse_bind (fun _ => h) fun _ => ?_
    exact gives_modify (hI st tag h)

theorem gives_defineSum_openWithin (tags : List TypeId) (h : st.OpenWithin V) :
    Gives (defineSum sum tags) st (OpenWithin V) fun _ => OpenWithin V := by
  refine gives_get_bind ?_
  refine gives_refuse_bind (fun _ => h) fun _ => ?_
  refine gives_refuse_bind (fun _ => h) fun _ => ?_
  refine (gives_bindTags_keeps tags (fun _ tag h => h.bindParent tag sum) h).bind ?_
  exact fun _ _ h => gives_modify (h.setBody fun _ heq => by cases heq)

theorem gives_defineProduct_openWithin {name : Name} {params fields : List TypeId}
    (names : List (Option Name)) (h : st.OpenWithin V) (hd : st.Declares name ty .product params)
    (hfields : ∀ f ∈ fields, st.OpenField V params f) :
    Gives (defineProduct ty fields names) st (OpenWithin V) fun _ => OpenWithin V := by
  refine gives_get_bind ?_
  refine gives_refuse_bind (fun _ => h) fun _ => ?_
  refine gives_refuse_bind (fun _ => h) fun _ => ?_
  refine gives_modify (h.setBody fun hd' heq => ?_)
  obtain ⟨-, -, rfl⟩ := hd.unique_of_id hd'
  cases heq
  exact hfields

end DeclM

/-! ## Registering -/

/-- The fields of a declared type, those of all tags for a sum. -/
def TypeDecl.fields (d : TypeDecl) : List FieldDecl :=
  match d.body with
  | .product fields => fields
  | .sum tags => tags.flatMap (·.fields)

/-- The type variables in the fields of a declared type that are none of its parameters. -/
def TypeDecl.openVars (d : TypeDecl) : List Name :=
  (d.fields.flatMap (·.written.varNames)).filter (· ∉ d.params)

namespace CheckM

variable {s : CheckState} {V : Set Name}

/-- A type that is resolved has the type variables that are written. -/
theorem ends_resolve_named (w : TypeExpr) (span : Span) (hco : s.store.Coherent) :
    Ends (resolve w span) s fun ty s' => s.Advances s' ∧ ty < s'.store.size ∧
      ∀ n, (s'.store.tree ty).Occurs (.named n) → n ∈ w.varNames := by
  have hnamed : Ends (resolve w span) s fun ty s' =>
      ∀ n, (s'.store.tree ty).Occurs (.named n) → n ∈ w.varNames := by
    refine ends_run_bind (resolvesWell s.store.declarations span w s.store hco rfl) ?_ ?_
    · rintro ty st' ⟨-, hresolves⟩
      refine ends_pure fun n hn => ?_
      obtain ⟨m, hm, heq⟩ := hresolves.2.occurs hn
      cases heq
      exact hm
    · rintro f st' -
      refine (ends_report f _).bind fun _ s' _ => ends_pure fun n hn => ?_
      simp [occurs_mk, Shape.varIdent?, Shape.children] at hn
  refine ((ends_resolve w span hco rfl).and hnamed).mono ?_
  rintro ty s' ⟨⟨hadv, hlt, -⟩, hn⟩
  exact ⟨hadv, hlt, hn⟩

theorem ends_defineFields_openWithin {ty : TypeId} {name : Name} {params : List TypeId}
    (fields : List FieldDecl) (span : Span) (h : s.store.OpenWithin V) (hco : s.store.Coherent)
    (hd : s.store.Declares name ty .product params)
    (hfields : FieldsWithin V s.store params fields) :
    Ends (defineFields ty fields span) s fun _ s' => s'.store.OpenWithin V := by
  refine (ends_mapM (P := fun (f : FieldDecl) t s' => t < s'.store.size ∧
    ∀ n, (s'.store.tree t).Occurs (.named n) → n ∈ f.written.varNames) fields hco ?_
    fun f _ s' hs' => ends_resolve_named f.written f.span hs'.coherent).bind ?_
  · rintro f t s₁ s₂ hadv ⟨hlt, hn⟩
    refine ⟨lt_size_of_le hadv.store.le hlt, ?_⟩
    rw [tree_of_le hadv.store.le hlt]
    exact hn
  · rintro types s₁ ⟨hadv, htypes⟩
    have hopen : ∀ t ∈ types, s₁.store.OpenField V params t := fun t ht => by
      obtain ⟨f, hf, hlt, hn⟩ := exists_mem_of_forall₂ htypes ht
      exact ⟨hlt, fun n hocc => hfields.of_le hadv.store.le hd.params_lt f hf n (hn n hocc)⟩
    refine (ends_declareAt (DeclM.gives_defineProduct_openWithin _ (h.of_advances hco hadv.store)
      (hadv.store.declares hd) hopen)).bind ?_
    rintro (_ | _) s₂ ⟨-, hst⟩
    · exact ends_pure hst.1
    · exact ends_pure hst

theorem ends_defineTags_openWithin (tags : List (TypeId × TagDecl)) {rest params : List TypeId}
    (h : s.store.OpenWithin V) (hdef : s.store.Defining (tags.map (·.1) ++ rest))
    (htags : ∀ tag ∈ tags, (∃ name, s.store.Declares name tag.1 .product params) ∧
      FieldsWithin V s.store params tag.2.fields) :
    Ends (tags.forM fun tag => defineFields tag.1 tag.2.fields tag.2.span) s fun _ s' =>
      s'.store.OpenWithin V := by
  induction tags generalizing s with
  | nil => exact ends_pure h
  | cons tag tags ih =>
    obtain ⟨⟨⟨name, hd⟩, hfields⟩, htags⟩ := List.forall_mem_cons.mp htags
    refine ((ends_defineFields tag.2.fields tag.2.span hdef hd).and
      (ends_defineFields_openWithin tag.2.fields tag.2.span h hdef.coherent hd hfields)).bind ?_
    rintro _ s₁ ⟨⟨hdefines, -⟩, h₁⟩
    refine ih h₁ hdefines.defining fun t ht => ?_
    obtain ⟨⟨name', hd'⟩, hfields'⟩ := htags t ht
    exact ⟨⟨name', hdefines.more.declares hd'⟩, hfields'.of_le hdefines.more.le hd'.params_lt⟩

/-- A type that waits for its body has fields whose type variables are parameters, or open. -/
def PendingType.Within (V : Set Name) (st : Store) : PendingType → Prop
  | .product ty fields _ => ∃ name params, st.Declares name ty .product params ∧
      FieldsWithin V st params fields
  | .sum ty tags _ => ∃ name params, st.Declares name ty .sum params ∧ ∀ tag ∈ tags,
      (∃ tagName, st.Declares tagName tag.1 .product params) ∧ FieldsWithin V st params tag.2.fields

namespace PendingType.Within

variable {st st' : Store} {pending : PendingType}

theorem of_more (h : pending.Within V st) (hmore : st.DeclaresMore st') : pending.Within V st' := by
  cases pending with
  | product ty fields span =>
    obtain ⟨name, params, hd, hfields⟩ := h
    exact ⟨name, params, hmore.declares hd, hfields.of_le hmore.le hd.params_lt⟩
  | sum ty tags span =>
    obtain ⟨name, params, hd, htags⟩ := h
    refine ⟨name, params, hmore.declares hd, fun tag htag => ?_⟩
    obtain ⟨⟨tagName, hd'⟩, hfields⟩ := htags tag htag
    exact ⟨⟨tagName, hmore.declares hd'⟩, hfields.of_le hmore.le hd'.params_lt⟩

theorem fits (h : pending.Within V st) : pending.Fits st := by
  cases pending with
  | product ty fields span =>
    obtain ⟨name, params, hd, -⟩ := h
    exact ⟨name, params, hd⟩
  | sum ty tags span =>
    obtain ⟨name, params, hd, htags⟩ := h
    exact ⟨name, params, hd, fun tag htag => (htags tag htag).1⟩

end PendingType.Within

theorem ends_defineType_openWithin (pending : PendingType) {rest : List TypeId}
    (h : s.store.OpenWithin V) (hdef : s.store.Defining (pending.ids ++ rest))
    (hpending : pending.Within V s.store) :
    Ends (defineType pending) s fun _ s' => s'.store.OpenWithin V := by
  cases pending with
  | product ty fields span =>
    obtain ⟨name, params, hd, hfields⟩ := hpending
    exact ends_defineFields_openWithin fields span h hdef.coherent hd hfields
  | sum ty tags span =>
    obtain ⟨name, params, -, htags⟩ := hpending
    have hwaiting : s.store.Defining (tags.map (·.1) ++ ty :: rest) :=
      hdef.perm List.perm_middle.symm
    refine (ends_defineTags_openWithin tags h hwaiting htags).bind fun _ s₁ h₁ => ?_
    refine (ends_declareAt (DeclM.gives_defineSum_openWithin _ h₁)).bind ?_
    rintro (_ | _) s₂ ⟨-, hst⟩
    · exact ends_pure hst.1
    · exact ends_pure hst

theorem ends_defineTypes_openWithin (pending : List PendingType) (h : s.store.OpenWithin V)
    (hdef : s.store.Defining (pending.flatMap PendingType.ids))
    (hpending : ∀ p ∈ pending, PendingType.Within V s.store p) :
    Ends (pending.forM defineType) s fun _ s' => s'.store.OpenWithin V := by
  induction pending generalizing s with
  | nil => exact ends_pure h
  | cons p pending ih =>
    obtain ⟨hp, hpending⟩ := List.forall_mem_cons.mp hpending
    refine ((ends_defineType p hdef hp.fits).and (ends_defineType_openWithin p h hdef hp)).bind ?_
    rintro _ s₁ ⟨hdefines, h₁⟩
    exact ih h₁ hdefines.defining fun q hq => (hpending q hq).of_more hdefines.more

/-- The type variables in a field are parameters of its type, or open. -/
theorem fieldsWithin_of_openVars {d : TypeDecl} {st : Store} {params : List TypeId}
    {fields : List FieldDecl} (hopen : ∀ n ∈ d.openVars, n ∈ V) (hnames : st.Names d.params params)
    (hfields : ∀ f ∈ fields, f ∈ d.fields) : FieldsWithin V st params fields := by
  intro f hf n hn
  rw [hnames.idents]
  by_cases hparam : n ∈ d.params
  · exact .inl (List.mem_map_of_mem hparam)
  · refine .inr (hopen n (List.mem_filter.mpr ⟨?_, by simpa using hparam⟩))
    exact List.mem_flatMap.mpr ⟨f, hfields f hf, hn⟩

theorem ends_declareType_within (d : TypeDecl) {declared : List TypeId}
    (h : s.store.Declaring declared) (hopen : ∀ n ∈ d.openVars, n ∈ V) :
    Ends (declareType d) s fun made s' => ∀ pending ∈ made, PendingType.Within V s'.store pending := by
  unfold declareType
  split
  · next fields hbody =>
    refine (ends_declare h).bind ?_
    rintro made s' ⟨-, hmade⟩
    refine ends_pure fun pending hp => ?_
    obtain ⟨ty, hty, rfl⟩ := Option.map_eq_some_iff.mp hp
    obtain ⟨vars, hd, hnames⟩ := hmade ty hty
    exact ⟨_, vars, hd, fieldsWithin_of_openVars hopen hnames
      fun f hf => by rwa [TypeDecl.fields, hbody]⟩
  · next tags hbody =>
    refine (ends_declare h).bind ?_
    rintro (_ | ty) s₁ ⟨hdecl, hmade⟩
    · exact ends_pure fun _ hp => by cases hp
    · obtain ⟨vars, hd, hnames⟩ := hmade ty rfl
      refine (ends_declareTags d.params tags hdecl.declaring hnames).bind ?_
      rintro made s₂ ⟨hdecl₂, hfits⟩
      refine ends_pure fun pending hp => ?_
      obtain rfl := Option.some.inj hp
      refine ⟨_, vars, hdecl₂.more.declares hd, fun tag htag => ?_⟩
      obtain ⟨hwritten, htagDeclared⟩ := hfits tag htag
      refine ⟨htagDeclared, fieldsWithin_of_openVars hopen (hnames.of_le hdecl₂.more.le) fun f hf => ?_⟩
      rw [TypeDecl.fields, hbody]
      exact List.mem_flatMap.mpr ⟨tag.2, hwritten, hf⟩

theorem ends_registerTypes_openWithin (types : List TypeDecl) (h : s.store.Declaring [])
    (hopen : ∀ d ∈ types, ∀ n ∈ d.openVars, n ∈ V) :
    Ends (registerTypes types) s fun _ s' => s'.store.OpenWithin V := by
  refine (ends_mapM_declare PendingType.ids (PendingType.Within V) types h
    (fun _ _ _ hmore hp => hp.of_more hmore) fun d hd s₁ declared _ hs₁ =>
      ⟨(ends_declareType d hs₁).1, ends_declareType_within d hs₁ (hopen d hd)⟩).bind ?_
  rintro pending s₁ ⟨hdecl, hpending⟩
  exact ends_defineTypes_openWithin _ (.of_declaring hdecl.declaring) hdecl.declaring.defining hpending

/-- Registering a trait builds types. -/
theorem ends_registerTrait_endsWell (d : TraitDecl) (hco : s.store.Coherent) :
    Ends (registerTrait d) s fun _ s' => DeclM.EndsWell s.store s'.store := by
  refine (ends_mapM (P := fun _ sig s' => sig.Have s'.Sound) d.methods hco
    (fun _ _ _ _ hadv h => h.mono fun _ hty => hty.of_advances hadv)
    fun m _ s' hs' => ends_methodSig m hs'.coherent).bind ?_
  rintro methods s₁ ⟨hadv, hmethods⟩
  obtain ⟨hadds, -⟩ := s₁.traits.addsTraits_register d.name d.params methods hadv.coherent
    fun m hm => by
      obtain ⟨_, -, hsound⟩ := exists_mem_of_forall₂ hmethods hm
      exact hsound.mono fun _ hty => hty.1
  have hends : DeclM.EndsWell s.store (s₁.traits.register d.name d.params methods s₁.store).2 :=
    ⟨hadv.store.trans hadds.advances, hadds.coherent⟩
  refine ends_get_bind (Ends.bind (Q := fun _ s' => DeclM.EndsWell s.store s'.store)
    (ends_build hends) ?_)
  rintro (e | r) s₂ h₂
  · exact (ends_report _ _).mono fun _ _ ⟨_, hstore, _⟩ => hstore ▸ h₂
  · exact ends_modify h₂

theorem ends_registerImpl_endsWell (d : TraitRef) (hco : s.store.Coherent) :
    Ends (registerImpl d) s fun _ s' => DeclM.EndsWell s.store s'.store := by
  refine (ends_resolveTraitRef _ d hco rfl).bind ?_
  rintro made s₁ ⟨hadv, -⟩
  cases made with
  | none => exact ends_pure hadv.endsWell
  | some ty => exact ends_modify hadv.endsWell

/-- The fields of declared products are over their parameters, up to the type variables that are written
open. -/
theorem ends_registerAll_openWithin (m : Module) (h : s.store.Declaring [])
    (hopen : ∀ d ∈ m.types, ∀ n ∈ d.openVars, n ∈ V) :
    Ends (registerAll m) s fun _ s' => s'.store.OpenWithin V := by
  have hkept : ∀ {s₁ s₂ : CheckState}, s₁.store.OpenWithin V ∧ s₁.store.Coherent →
      DeclM.EndsWell s₁.store s₂.store → s₂.store.OpenWithin V ∧ s₂.store.Coherent :=
    fun h hends => ⟨h.1.of_advances h.2 hends.1, hends.2⟩
  refine ((ends_registerTypes m.types h).and (ends_registerTypes_openWithin m.types h hopen)).bind ?_
  rintro _ s₁ ⟨⟨-, hdef, -⟩, h₁⟩
  refine Ends.mono (Q := fun _ s' => s'.store.OpenWithin V ∧ s'.store.Coherent) ?_ fun _ _ h => h.1
  refine (ends_forM m.traits ⟨h₁, hdef.coherent⟩ fun d _ s' hs' =>
    (ends_registerTrait_endsWell d hs'.2).mono fun _ _ => hkept hs').bind fun _ s₂ hs₂ => ?_
  exact ends_forM m.impls hs₂ fun d _ s' hs' =>
    (ends_registerImpl_endsWell d hs'.2).mono fun _ _ => hkept hs'

end CheckM

open CheckM in
theorem Module.openWithin_registered (m : Module) (config : CheckConfig) (log : DiagnosticLog) :
    (m.registered config log).store.OpenWithin {n | ∃ d ∈ m.types, n ∈ d.openVars} := by
  have hinitial := TraitTable.initial_operators
  unfold registered start
  generalize TraitTable.operators Store.new = operators at hinitial
  exact ends_registerAll_openWithin m hinitial.declaring fun d hd n hn => ⟨d, hd, hn⟩

end ConstraintTyping
