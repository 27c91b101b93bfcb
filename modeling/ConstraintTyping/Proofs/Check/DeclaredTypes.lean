import ConstraintTyping.Proofs.Check.Signatures

/-!
# What registering types declares

After the types of a module are registered without an error, the store has each of them as it is
written: a product with a field for each written one, a sum with its tags in the order in which they
are written, each of them a product that has the sum as its parent.  Nothing else is declared.
-/

namespace ConstraintTyping

open Store StoreM TypeTree

/-- The names that a declaration introduces: its own and those of its tags. -/
def TypeDecl.names (d : TypeDecl) : List Name :=
  d.name :: match d.body with
    | .product _ => []
    | .sum tags => tags.map (·.name)

namespace Store

variable {st st' st'' : Store} {name : Name} {ty sum tag : TypeId} {params ids ids' : List TypeId}
  {fields : List FieldDecl} {parent : Option TypeId} {d : TypeDecl}

/-- A declared product as it is written: there is a field for each written one. -/
structure HasProduct (st : Store) (name : Name) (fields : List FieldDecl) (params : List TypeId)
    (parent : Option TypeId) (ty : TypeId) : Prop where
  declares : st.Declares name ty .product params
  body : ∃ types, st.productBody? ty = some ⟨types, fields.map (·.name), parent⟩ ∧
    types.length = fields.length

/-- A store has a type as it is written, over variables of the names of its parameters. -/
inductive Realizes (st : Store) (d : TypeDecl) : Prop
  | product {fields : List FieldDecl} {params : List TypeId} {ty : TypeId}
      (hbody : d.body = .product fields) (hparams : st.Names d.params params)
      (h : st.HasProduct d.name fields params none ty)
  | sum {tags : List TagDecl} {params ids : List TypeId} {ty : TypeId} (hbody : d.body = .sum tags)
      (hparams : st.Names d.params params) (hd : st.Declares d.name ty .sum params)
      (htags : st.sumTags? ty = some ids)
      (h : List.Forall₂ (fun tag id => st.HasProduct tag.name tag.fields params (some ty) id)
        tags ids)

/-- The declared types are the same, and they have the bodies that they had, apart from given
ones. -/
structure Keeps (st : Store) (ids : List TypeId) (st' : Store) : Prop where
  declared : st'.nominals.declared = st.nominals.declared
  bodies : ∀ {name : Name} {d : TypeId} {k : DeclKind} {params : List TypeId} {b : Body},
    st.Declares name d k params → d ∉ ids → st.nominals.bodies[d]? = some b →
      st'.nominals.bodies[d]? = some b

theorem Keeps.refl (st : Store) : st.Keeps [] st := ⟨rfl, fun _ _ hb => hb⟩

theorem Keeps.of_advances (h : st.Advances st') : st.Keeps [] st' :=
  ⟨h.declared, fun hd _ hb => h.bodies hd.declared hb⟩

theorem Keeps.trans (h : st.Keeps ids st') (hmore : st.DeclaresMore st') (h' : st'.Keeps ids' st'') :
    st.Keeps (ids ++ ids') st'' where
  declared := h'.declared.trans h.declared
  bodies hd hnot hb := by
    rw [List.mem_append, not_or] at hnot
    exact h'.bodies (hmore.declares hd) hnot.2 (h.bodies hd hnot.1 hb)

theorem keeps_setBody (st : Store) (ty : TypeId) (b : Body) : st.Keeps [ty] (st.setBody ty b) where
  declared := rfl
  bodies _ hnot hb := by
    rw [bodies_setBody, if_neg fun heq => hnot (by simp [heq])]
    exact hb

theorem HasProduct.of_keeps (h : st.HasProduct name fields params parent ty)
    (hmore : st.DeclaresMore st') (hkeeps : st.Keeps ids st') (hty : ty ∉ ids) :
    st'.HasProduct name fields params parent ty where
  declares := hmore.declares h.declares
  body := by
    obtain ⟨types, hbody, hlen⟩ := h.body
    exact ⟨types, productBody?_eq_some.mpr
      (hkeeps.bodies h.declares hty (productBody?_eq_some.mp hbody)), hlen⟩

end Store

namespace CheckM

variable {α β : Type} {s s' s'' : CheckState}

/-! ## Names are declared -/

theorem Ends.and {act : CheckM α} {Q R : α → CheckState → Prop} (h : Ends act s Q)
    (h' : Ends act s R) : Ends act s fun a s' => Q a s' ∧ R a s' :=
  ⟨h, h'⟩

/-- More is declared, and an error that is on record stays on record. -/
structure Extends (s s' : CheckState) : Prop where
  more : s.store.DeclaresMore s'.store
  clean : s'.Clean → s.Clean

theorem Extends.refl (s : CheckState) : Extends s s := ⟨.refl _, fun h => h⟩

theorem Extends.trans (h : Extends s s') (h' : Extends s' s'') : Extends s s'' :=
  ⟨h.more.trans h'.more, fun hclean => h.clean (h'.clean hclean)⟩

theorem Declares.extends {declared : List TypeId} (h : Declares declared s s') : Extends s s' :=
  ⟨h.more, h.clean⟩

/-- A loop that declares types keeps what its rounds came to. -/
theorem ends_mapM_declaring {f : α → CheckM β} {P : α → β → CheckState → Prop} (xs : List α)
    (h : ∃ declared, s.store.Declaring declared)
    (stable : ∀ x y s₁ s₂, Extends s₁ s₂ → P x y s₁ → P x y s₂)
    (hf : ∀ x s₁, Extends s s₁ → (∃ declared, s₁.store.Declaring declared) →
      Ends (f x) s₁ fun y s' =>
        (∃ declared, s'.store.Declaring declared) ∧ Extends s₁ s' ∧ P x y s') :
    Ends (xs.mapM f) s fun ys s' =>
      Extends s s' ∧ List.Forall₂ (fun x y => P x y s') xs ys := by
  induction xs generalizing s with
  | nil => exact ends_pure ⟨.refl s, .nil⟩
  | cons x xs ih =>
    rw [List.mapM_cons]
    refine (hf x s (.refl s) h).bind ?_
    rintro y s₁ ⟨hs₁, hext, hy⟩
    refine (ih hs₁ fun x' s' hs' => hf x' s' (hext.trans hs')).bind ?_
    rintro ys s₂ ⟨hext₂, hys⟩
    exact ends_pure ⟨hext.trans hext₂, .cons (stable x y _ _ hext₂ hy) hys⟩

/-- A declaration that is not reported is there. -/
theorem ends_declare_clean {kind : DeclKind} {name : Name} {params : List Name} {span : Span}
    {declared : List TypeId} (h : s.store.Declaring declared) :
    Ends (declareAt span (DeclM.declare kind name params)) s fun made s' =>
      Declares (declared ++ made.toList) s s' ∧ (∀ ty ∈ made, ∃ vars,
        s'.store.Declares name ty kind vars ∧ s'.store.Names params vars) ∧
      (s'.Clean → made.isSome) := by
  refine ((ends_declareAt (DeclM.gives_declare kind name params h)).and (ends_declare h)).mono ?_
  rintro made s' ⟨⟨-, hreported⟩, hdecl, hmade⟩
  refine ⟨hdecl, hmade, fun hclean => ?_⟩
  cases made with
  | some ty => rfl
  | none => exact absurd hclean hreported.2

/-- The tags that wait for their fields are the written ones. -/
theorem ends_declareTags_clean (params : List Name) (tags : List TagDecl)
    {declared vars : List TypeId}
    (h : s.store.Declaring declared) (hvars : s.store.Names params vars) :
    Ends (declareTags params tags) s fun made s' => s'.Clean →
      List.Forall₂ (fun tag m => m.2 = tag ∧ s'.store.Declares tag.name m.1 .product vars)
        tags made := by
  refine (ends_mapM_declaring (P := fun (tag : TagDecl) (made : Option (TypeId × TagDecl)) s' =>
    s'.Clean → ∃ m, made = some m ∧ m.2 = tag ∧ s'.store.Declares tag.name m.1 .product vars)
    tags ⟨declared, h⟩ ?_ ?_).bind ?_
  · intro tag made s₁ s₂ hext hmade hclean
    obtain ⟨m, hm, htag, hd⟩ := hmade (hext.clean hclean)
    exact ⟨m, hm, htag, hext.more.declares hd⟩
  · rintro tag s₁ hext ⟨declared, hs₁⟩
    refine (ends_declare_clean hs₁).bind ?_
    rintro made s' ⟨hdecl, hmade, hclean⟩
    refine ends_pure ⟨⟨_, hdecl.declaring⟩, hdecl.extends, fun hc => ?_⟩
    obtain ⟨ty, rfl⟩ := Option.isSome_iff_exists.mp (hclean hc)
    obtain ⟨vars', hd, hnames⟩ := hmade ty rfl
    rw [hnames.unique (hvars.of_le (hext.more.le.trans hdecl.more.le))] at hd
    exact ⟨(ty, tag), rfl, rfl, hd⟩
  · rintro made s' ⟨-, hmade⟩
    exact ends_pure fun hclean => forall₂_filterMap_of_some (hmade.imp fun _ _ h => h hclean)

/-- What waits for its body is a type as it is written. -/
def PendingType.For (st : Store) (d : TypeDecl) : PendingType → Prop
  | .product ty fields _ => d.body = .product fields ∧
      ∃ params, st.Names d.params params ∧ st.Declares d.name ty .product params
  | .sum ty tags _ => ∃ params written, d.body = .sum written ∧ st.Names d.params params ∧
      st.Declares d.name ty .sum params ∧
      List.Forall₂ (fun tag m => m.2 = tag ∧ st.Declares tag.name m.1 .product params) written tags

theorem PendingType.For.of_more {st st' : Store} {d : TypeDecl} {pending : PendingType}
    (h : pending.For st d) (hmore : st.DeclaresMore st') : pending.For st' d := by
  cases pending with
  | product ty fields span =>
    obtain ⟨hbody, params, hparams, hd⟩ := h
    exact ⟨hbody, params, hparams.of_le hmore.le, hmore.declares hd⟩
  | sum ty tags span =>
    obtain ⟨params, written, hbody, hparams, hd, htags⟩ := h
    exact ⟨params, written, hbody, hparams.of_le hmore.le, hmore.declares hd,
      htags.imp fun _ _ h => ⟨h.1, hmore.declares h.2⟩⟩

theorem PendingType.For.fits {st : Store} {d : TypeDecl} {pending : PendingType}
    (h : pending.For st d) : pending.Fits st := by
  cases pending with
  | product ty fields span =>
    obtain ⟨-, params, -, hd⟩ := h
    exact ⟨_, params, hd⟩
  | sum ty tags span =>
    obtain ⟨params, written, -, -, hd, htags⟩ := h
    refine ⟨_, params, hd, fun m hm => ?_⟩
    obtain ⟨tag, -, -, htag⟩ := exists_mem_of_forall₂ htags hm
    exact ⟨_, htag⟩

theorem ends_declareType_clean (d : TypeDecl) {declared : List TypeId}
    (h : s.store.Declaring declared) :
    Ends (declareType d) s fun made s' => s'.Clean →
      ∃ pending, made = some pending ∧ pending.For s'.store d := by
  unfold declareType
  split
  · next fields hbody =>
    refine (ends_declare_clean h).bind ?_
    rintro made s' ⟨-, hmade, hclean⟩
    refine ends_pure fun hc => ?_
    obtain ⟨ty, rfl⟩ := Option.isSome_iff_exists.mp (hclean hc)
    obtain ⟨vars, hd, hnames⟩ := hmade ty rfl
    exact ⟨_, rfl, hbody, vars, hnames, hd⟩
  · next tags hbody =>
    refine (ends_declare_clean h).bind ?_
    rintro (_ | ty) s₁ ⟨hdecl, hmade, hclean⟩
    · exact ends_pure fun hc => absurd (hclean hc) (by simp)
    · obtain ⟨vars, hd, hnames⟩ := hmade ty rfl
      have hboth : Ends (declareTags d.params tags) s₁ fun made s' =>
          Extends s₁ s' ∧ (s'.Clean → List.Forall₂
            (fun tag m => m.2 = tag ∧ s'.store.Declares tag.name m.1 .product vars) tags made) :=
        ⟨(ends_declareTags d.params tags hdecl.declaring hnames).1.extends,
          ends_declareTags_clean d.params tags hdecl.declaring hnames⟩
      refine hboth.bind ?_
      rintro made s₂ ⟨hext, hmade₂⟩
      exact ends_pure fun hc => ⟨_, rfl, vars, tags, hbody, hnames.of_le hext.more.le,
        hext.more.declares hd, hmade₂ hc⟩

theorem ends_declareTypes (types : List TypeDecl) (h : s.store.Declaring []) :
    Ends (types.mapM declareType) s fun made s' => s'.Clean →
      List.Forall₂ (fun d pending => pending.For s'.store d) types (made.filterMap (·)) := by
  refine (ends_mapM_declaring (P := fun (d : TypeDecl) (made : Option PendingType) s' =>
    s'.Clean → ∃ pending, made = some pending ∧ pending.For s'.store d) types ⟨[], h⟩ ?_ ?_).mono ?_
  · intro d made s₁ s₂ hext hmade hclean
    obtain ⟨pending, hpending, hfor⟩ := hmade (hext.clean hclean)
    exact ⟨pending, hpending, hfor.of_more hext.more⟩
  · rintro d s₁ - ⟨declared, hs₁⟩
    have hdecl := (ends_declareType d hs₁).1
    exact ⟨⟨_, hdecl.declaring⟩, hdecl.extends, ends_declareType_clean d hs₁⟩
  · rintro made s' ⟨-, hmade⟩ hclean
    exact forall₂_filterMap_of_some (hmade.imp fun _ _ h => h hclean)

/-! ## Types get their bodies -/

/-- A product that gets its fields has one for each written one, and no other body changes. -/
theorem ends_defineFields_clean {ty : TypeId} {name : Name} (fields : List FieldDecl) (span : Span)
    {waiting params : List TypeId} (h : s.store.Defining (ty :: waiting))
    (hd : s.store.Declares name ty .product params) :
    Ends (defineFields ty fields span) s fun _ s' => s'.Clean →
      s'.store.HasProduct name fields params none ty ∧ s.store.Keeps [ty] s'.store := by
  refine (ends_mapM (P := fun _ _ _ => True) fields h.coherent (fun _ _ _ _ _ _ => trivial)
    fun f _ s' hs' => (ends_resolve_sound f.written f.span hs'.coherent).mono
      fun _ _ h => ⟨h.1, trivial⟩).bind ?_
  rintro types s₁ ⟨hadv, htypes⟩
  refine (ends_declareAt DeclM.gives_defineProduct_setBody).bind ?_
  rintro (_ | _) s₂ ⟨-, hmade⟩
  · exact ends_pure fun hclean => absurd hclean hmade.2
  refine ends_pure fun _ => ?_
  have hstore : s₂.store = s₁.store.setBody ty
      (.product { fields := types, fieldNames := fields.map (·.name), parent := none }) := hmade
  rw [hstore]
  refine ⟨⟨?_, types, ?_, htypes.length_eq.symm⟩, ?_⟩
  · exact (sameButBodies_setBody _ _ _).declares.mpr (hadv.store.declares hd)
  · rw [productBody?_eq_some, bodies_setBody, if_pos rfl]
  · exact (Keeps.of_advances hadv.store).trans hadv.store.declaresMore (keeps_setBody _ _ _)

theorem ends_defineTags_clean (tags : List (TypeId × TagDecl)) {rest params : List TypeId}
    (h : s.store.Defining (tags.map (·.1) ++ rest))
    (htags : ∀ tag ∈ tags, s.store.Declares tag.2.name tag.1 .product params) :
    Ends (tags.forM fun tag => defineFields tag.1 tag.2.fields tag.2.span) s fun _ s' => s'.Clean →
      (∀ tag ∈ tags, s'.store.HasProduct tag.2.name tag.2.fields params none tag.1) ∧
        s.store.Keeps (tags.map (·.1)) s'.store := by
  induction tags generalizing s with
  | nil => exact ends_pure fun _ => ⟨by simp, Keeps.refl _⟩
  | cons tag tags ih =>
    obtain ⟨hd, htags⟩ := List.forall_mem_cons.mp htags
    have hfirst := ends_defineFields tag.2.fields tag.2.span h hd
    have hfirst_clean := ends_defineFields_clean tag.2.fields tag.2.span h hd
    refine (hfirst.and hfirst_clean).bind ?_
    rintro _ s₁ ⟨⟨hdefines, -⟩, hclean₁⟩
    have htags₁ : ∀ t ∈ tags, s₁.store.Declares t.2.name t.1 .product params := fun t ht =>
      hdefines.more.declares (htags t ht)
    have hrest := ends_defineTags tags hdefines.defining fun t ht => ⟨_, htags₁ t ht⟩
    refine (hrest.and (ih hdefines.defining htags₁)).mono ?_
    rintro _ s₂ ⟨⟨hdefines₂, -⟩, hclean₂⟩ hclean
    obtain ⟨hproducts, hkeeps₂⟩ := hclean₂ hclean
    obtain ⟨hproduct, hkeeps₁⟩ := hclean₁ (hdefines₂.clean hclean)
    have hnew : tag.1 ∉ tags.map (·.1) := fun hmem =>
      (List.nodup_cons.mp h.nodup).1 (List.mem_append_left _ hmem)
    exact ⟨List.forall_mem_cons.mpr ⟨hproduct.of_keeps hdefines₂.more hkeeps₂ hnew, hproducts⟩,
      hkeeps₁.trans hdefines.more hkeeps₂⟩

/-- A type that waited has its body as it is written. -/
def PendingType.Done (st : Store) (d : TypeDecl) : PendingType → Prop
  | .product ty fields _ => d.body = .product fields ∧
      ∃ params, st.Names d.params params ∧ st.HasProduct d.name fields params none ty
  | .sum ty tags _ => ∃ params written, d.body = .sum written ∧ st.Names d.params params ∧
      st.Declares d.name ty .sum params ∧ st.sumTags? ty = some (tags.map (·.1)) ∧
      List.Forall₂ (fun tag m => m.2 = tag ∧
        st.HasProduct tag.name tag.fields params (some ty) m.1) written tags

theorem PendingType.Done.realizes {st : Store} {d : TypeDecl} {pending : PendingType}
    (h : pending.Done st d) : st.Realizes d := by
  cases pending with
  | product ty fields span =>
    obtain ⟨hbody, params, hparams, hproduct⟩ := h
    exact .product hbody hparams hproduct
  | sum ty tags span =>
    obtain ⟨params, written, hbody, hparams, hd, htags, hproducts⟩ := h
    exact .sum hbody hparams hd htags
      (List.forall₂_map_right_iff.mpr (hproducts.imp fun _ _ h => h.2))

theorem PendingType.Done.of_keeps {st st' : Store} {d : TypeDecl} {pending : PendingType}
    {ids : List TypeId} (h : pending.Done st d) (hmore : st.DeclaresMore st')
    (hkeeps : st.Keeps ids st') (hdisjoint : List.Disjoint pending.ids ids) :
    pending.Done st' d := by
  cases pending with
  | product ty fields span =>
    obtain ⟨hbody, params, hparams, hproduct⟩ := h
    exact ⟨hbody, params, hparams.of_le hmore.le,
      hproduct.of_keeps hmore hkeeps (hdisjoint List.mem_cons_self)⟩
  | sum ty tags span =>
    obtain ⟨params, written, hbody, hparams, hd, htags, hproducts⟩ := h
    refine ⟨params, written, hbody, hparams.of_le hmore.le, hmore.declares hd, sumTags?_eq_some.mpr
      (hkeeps.bodies hd (hdisjoint List.mem_cons_self) (sumTags?_eq_some.mp htags)), ?_⟩
    refine (List.Forall₂.flip (forall₂_of_mem hproducts.flip fun m hm tag h => ?_))
    exact ⟨h.1, h.2.of_keeps hmore hkeeps
      (hdisjoint (List.mem_cons_of_mem _ (List.mem_map_of_mem hm)))⟩

/-- A type that waits gets its body as it is written, and no other body changes. -/
theorem ends_defineType_clean {d : TypeDecl} (pending : PendingType) {rest : List TypeId}
    (h : s.store.Defining (pending.ids ++ rest)) (hfor : pending.For s.store d) :
    Ends (defineType pending) s fun _ s' => s'.Clean →
      pending.Done s'.store d ∧ s.store.Keeps pending.ids s'.store := by
  cases pending with
  | product ty fields span =>
    obtain ⟨hbody, params, hparams, hd⟩ := hfor
    have hdefine := ends_defineFields fields span h hd
    refine (hdefine.and (ends_defineFields_clean fields span h hd)).mono ?_
    rintro _ s' ⟨⟨hdefines, -⟩, hdone⟩ hclean
    exact ⟨⟨hbody, params, hparams.of_le hdefines.more.le, (hdone hclean).1⟩, (hdone hclean).2⟩
  | sum ty tags span =>
    obtain ⟨params, written, hbody, hparams, hd, htags⟩ := hfor
    have hdeclared : ∀ tag ∈ tags, s.store.Declares tag.2.name tag.1 .product params := by
      intro m hm
      obtain ⟨tag, -, rfl, hd⟩ := exists_mem_of_forall₂ htags hm
      exact hd
    have hdefining : s.store.Defining (tags.map (·.1) ++ ty :: rest) :=
      h.perm List.perm_middle.symm
    have hfields := ends_defineTags tags hdefining fun tag ht => ⟨_, hdeclared tag ht⟩
    have hfields_clean := ends_defineTags_clean tags hdefining hdeclared
    refine (hfields.and hfields_clean).bind ?_
    rintro _ s₁ ⟨⟨hdefines, -⟩, hclean₁⟩
    refine (ends_declareAt DeclM.gives_defineSum_setBody).bind ?_
    rintro (_ | _) s₂ ⟨hsame, hmade⟩
    · exact ends_pure fun hclean => absurd hclean hmade.2
    refine ends_pure fun hclean => ?_
    obtain ⟨hproducts, hkeeps⟩ := hclean₁ (hsame.clean hclean)
    have hstore : s₂.store = (s₁.store.bindParents ty (tags.map (·.1))).setBody ty
      (.sum (tags.map (·.1))) := hmade
    have hbodies : SameButBodies s₁.store s₂.store := by
      rw [hstore]
      exact (sameButBodies_bindParents _ _ _).trans (sameButBodies_setBody _ _ _)
    have hself : ty ∉ tags.map (·.1) := fun hmem =>
      (List.nodup_cons.mp h.nodup).1 (List.mem_append_left _ hmem)
    have hle := hdefines.more.le.trans hbodies.declaresMore.le
    refine ⟨⟨params, written, hbody, hparams.of_le hle,
      hbodies.declares.mpr (hdefines.more.declares hd), ?_, ?_⟩, ?_⟩
    · rw [sumTags?_eq_some, hstore, bodies_setBody, if_pos rfl]
    · refine (List.Forall₂.flip (forall₂_of_mem htags.flip fun m hm tag htag => ⟨htag.1, ?_⟩))
      obtain ⟨rfl, -⟩ := htag
      obtain ⟨hdeclares, types, hproduct, hlen⟩ := hproducts m hm
      refine ⟨hbodies.declares.mpr hdeclares, types, ?_, hlen⟩
      have hmem : m.1 ∈ tags.map (·.1) := List.mem_map_of_mem hm
      have hbound : (s₁.store.bindParents ty (tags.map (·.1))).productBody? m.1 =
          some ⟨types, m.2.fields.map (·.name), some ty⟩ :=
        productBody?_bindParents hproduct hmem (.inl rfl)
      have hne : ty ≠ m.1 := fun heq => hself (heq ▸ hmem)
      rw [productBody?_eq_some, hstore, bodies_setBody, if_neg hne]
      exact productBody?_eq_some.mp hbound
    · refine ⟨hbodies.declared.trans hkeeps.declared, fun {name x k params b} hx hnot hb => ?_⟩
      obtain ⟨hty, htag⟩ : x ≠ ty ∧ x ∉ tags.map (·.1) := by
        simpa [PendingType.ids] using hnot
      rw [hstore, bodies_setBody, if_neg (Ne.symm hty), bodies_bindParents_of_not_mem htag]
      exact hkeeps.bodies hx htag hb

theorem ends_defineTypes_clean (pending : List PendingType) {types : List TypeDecl}
    (h : s.store.Defining (pending.flatMap PendingType.ids))
    (hfor : List.Forall₂ (fun d p => p.For s.store d) types pending) :
    Ends (pending.forM defineType) s fun _ s' => s'.Clean →
      List.Forall₂ (fun d p => p.Done s'.store d) types pending ∧
        s.store.Keeps (pending.flatMap PendingType.ids) s'.store := by
  induction pending generalizing s types with
  | nil =>
    cases hfor
    exact ends_pure fun _ => ⟨.nil, .refl _⟩
  | cons p pending ih =>
    obtain ⟨d, types, hp, hrest, rfl⟩ := List.forall₂_cons_right_iff.mp hfor
    refine ((ends_defineType p h hp.fits).and (ends_defineType_clean p h hp)).bind ?_
    rintro _ s₁ ⟨hdefines, hclean₁⟩
    have hrest₁ : List.Forall₂ (fun d p => p.For s₁.store d) types pending :=
      hrest.imp fun _ _ hq => hq.of_more hdefines.more
    have hlater : Ends (pending.forM defineType) s₁ fun _ s' => Defines [] s₁ s' := by
      refine ends_defineTypes pending hdefines.defining fun q hq => ?_
      obtain ⟨_, -, hfor⟩ := exists_mem_of_forall₂ hrest₁ hq
      exact hfor.fits
    refine (hlater.and (ih hdefines.defining hrest₁)).mono ?_
    rintro _ s₂ ⟨hdefines₂, hclean₂⟩ hclean
    obtain ⟨hdone, hkeeps₁⟩ := hclean₁ (hdefines₂.clean hclean)
    obtain ⟨hdones, hkeeps₂⟩ := hclean₂ hclean
    -- each type waits once
    have hdisjoint : List.Disjoint p.ids (pending.flatMap PendingType.ids) :=
      List.disjoint_of_nodup_append h.nodup
    exact ⟨.cons (hdone.of_keeps hdefines₂.more hkeeps₂ hdisjoint) hdones,
      hkeeps₁.trans hdefines.more hkeeps₂⟩

/-- What waits is declared under a name of its declaration. -/
theorem PendingType.For.names {st : Store} {d : TypeDecl} {pending : PendingType}
    (h : pending.For st d) {ty : TypeId} (hty : ty ∈ pending.ids) :
    ∃ name ∈ d.names, ∃ k params, st.Declares name ty k params := by
  cases pending with
  | product ty' fields span =>
    obtain ⟨-, params, -, hd⟩ := h
    obtain rfl := List.mem_singleton.mp hty
    exact ⟨d.name, List.mem_cons_self, _, _, hd⟩
  | sum ty' tags span =>
    obtain ⟨params, written, hbody, -, hd, htags⟩ := h
    rcases List.mem_cons.mp hty with rfl | hty
    · exact ⟨d.name, List.mem_cons_self, _, _, hd⟩
    · obtain ⟨m, hm, rfl⟩ := List.mem_map.mp hty
      obtain ⟨tag, htag, -, hd⟩ := exists_mem_of_forall₂ htags hm
      refine ⟨tag.name, List.mem_cons_of_mem _ ?_, _, _, hd⟩
      rw [hbody]
      exact List.mem_map_of_mem htag

/-- Types that are registered without an error are there as they are written, and nothing else is
declared. -/
theorem ends_registerTypes_clean (types : List TypeDecl) (h : s.store.Declaring []) :
    Ends (registerTypes types) s fun _ s' => s'.Clean →
      (∀ d ∈ types, s'.store.Realizes d) ∧
        ∀ name ty, s'.store.declared? name = some ty → ∃ d ∈ types, name ∈ d.names := by
  have hdeclared := (ends_mapM_declare PendingType.ids PendingType.Fits types h
    (fun _ _ _ hmore hfits => hfits.of_more hmore) fun d _ _ _ _ hs' => ends_declareType d hs').and
      (ends_declareTypes types h)
  refine hdeclared.bind ?_
  rintro made s₁ ⟨⟨hdecl, hfits⟩, hfor⟩
  have hwaiting := hdecl.declaring.defining
  rw [List.nil_append] at hwaiting
  by_cases hclean₁ : s₁.Clean
  · refine (ends_defineTypes_clean _ hwaiting (hfor hclean₁)).mono fun _ s₂ hdone hclean => ?_
    obtain ⟨hdones, hkeeps⟩ := hdone hclean
    refine ⟨fun d hd => ?_, fun name ty hty => ?_⟩
    · obtain ⟨p, -, hp⟩ := exists_mem_of_forall₂ hdones.flip hd
      exact PendingType.Done.realizes hp
    · rw [declared?, hkeeps.declared] at hty
      have hmem := hdecl.declaring.mem_iff.mpr ⟨name, hty⟩
      rw [List.nil_append] at hmem
      obtain ⟨p, hp, hty'⟩ := List.mem_flatMap.mp hmem
      obtain ⟨d, hd, hpending⟩ := exists_mem_of_forall₂ (hfor hclean₁) hp
      obtain ⟨name', hname', k, params, hdeclares⟩ := hpending.names hty'
      obtain ⟨-, k', params', hdeclares', -⟩ := hdecl.declaring.coherent.declares hty
      obtain ⟨rfl, -⟩ := hdeclares.unique_of_id hdeclares'
      exact ⟨d, hd, hname'⟩
  · refine (ends_defineTypes _ hwaiting hfits).mono fun _ s₂ hdefines hclean => ?_
    exact absurd (hdefines.clean hclean) hclean₁

end CheckM

/-! ## Registering without reports -/

namespace Store

variable {st st' : Store} {declared params : List TypeId} {name other : Name} {d : TypeId}
  {k : DeclKind}

/-- A declaration takes no other name. -/
theorem Declaring.free_of_declare (h : st.Declaring declared) (h' : st'.Declaring (declared ++ [d]))
    (hmore : st.DeclaresMore st') (hd : st'.Declares name d k params) (hne : other ≠ name)
    (hfree : st.declared? other = none) : st'.declared? other = none := by
  rw [Option.eq_none_iff_forall_ne_some]
  intro x hx
  obtain ⟨-, k', params', hother, -⟩ := h'.coherent.declares hx
  rcases List.mem_append.mp (h'.mem_iff.mpr ⟨other, hx⟩) with hmem | hmem
  · obtain ⟨name', hname'⟩ := h.mem_iff.mp hmem
    obtain ⟨-, k'', params'', hold, -⟩ := h.coherent.declares hname'
    obtain ⟨rfl, -⟩ := (hmore.declares hold).unique_of_id hother
    rw [hfree] at hname'
    cases hname'
  · obtain rfl := List.mem_singleton.mp hmem
    exact hne (hother.unique_of_id hd).1

end Store

namespace DeclM

variable {st : Store} {ty sum : TypeId} {fields tags waiting params : List TypeId}
  {names : List (Option Name)} {name : Name}

theorem gives_declare_free {declared : List TypeId} (kind : DeclKind) (name : Name)
    (params : List Name) (h : st.Declaring declared) (hfree : st.declared? name = none) :
    Gives (declare kind name params) st (fun _ => False)
      fun d st' => st'.Declaring (declared ++ [d]) ∧ st.DeclaresMore st' ∧
        ∃ vars, st'.Declares name d kind vars ∧ st'.Names params vars :=
  (gives_declare kind name params h).mono (fun _ hrefused => hrefused.2 hfree) fun _ _ h => h

theorem gives_defineProduct_free (hco : st.Coherent) (hd : st.Declares name ty .product params)
    (hnone : st.nominals.bodies[ty]? = none) :
    Gives (defineProduct ty fields names) st (fun _ => False) fun _ st' =>
      st' = st.setBody ty (.product { fields, fieldNames := names, parent := none }) := by
  refine gives_get_bind ?_
  refine gives_refuse_bind (fun hrefused => ?_) fun _ => ?_
  · rw [hd.kind, hco.isDeclaration hd] at hrefused
    simp [DeclKind.kind] at hrefused
  refine gives_refuse_bind (fun hrefused => ?_) fun _ => gives_modify rfl
  simp [Std.HashMap.contains_eq_isSome_getElem?, hnone] at hrefused

theorem gives_defineSum_free (h : st.Defining waiting) (hd : st.Declares name sum .sum params)
    (htags : ∀ tag ∈ tags, st.Untied params tag ∧ tag ∉ waiting)
    (hnone : st.nominals.bodies[sum]? = none) :
    Gives (defineSum sum tags) st (fun _ => False) fun _ _ => True := by
  refine gives_get_bind ?_
  refine gives_refuse_bind (fun hrefused => ?_) fun _ => ?_
  · rw [hd.kind, h.coherent.isDeclaration hd] at hrefused
    simp [DeclKind.kind] at hrefused
  refine gives_refuse_bind (fun hrefused => ?_) fun _ => ?_
  · simp [Std.HashMap.contains_eq_isSome_getElem?, hnone] at hrefused
  refine (gives_bindTags h hd fun tag ht =>
      ⟨(htags tag ht).1.freeFor sum, (htags tag ht).2⟩).bind fun _ _ _ => gives_modify trivial

end DeclM

namespace CheckM

variable {α : Type} {s : CheckState}

theorem ends_declareAt_ok {act : DeclM α} {Q : α → Store → Prop} (span : Span)
    (h : Gives act s.store (fun _ => False) Q) :
    Ends (declareAt span act) s fun made s' => s'.log = s.log ∧ ∃ a, made = some a ∧ Q a s'.store :=
  ends_run_bind h (fun a _ hQ => ends_pure ⟨rfl, a, rfl, hQ⟩) fun _ _ h => h.elim

/-- Tags with new names are declared without a report. -/
theorem ends_declareTags_free (params : List Name) (tags : List TagDecl) {declared : List TypeId}
    (h : s.store.Declaring declared) (hnodup : (tags.map (·.name)).Nodup)
    (hfree : ∀ tag ∈ tags, s.store.declared? tag.name = none) :
    Ends (declareTags params tags) s fun _ s' => s'.log = s.log := by
  suffices hloop : Ends (tags.mapM fun tag => do
      let ty ← declareAt tag.span (DeclM.declare .product tag.name params)
      return ty.map fun ty => (ty, tag)) s fun _ s' => s'.log = s.log from
    hloop.bind fun _ _ hlog => ends_pure hlog
  induction tags generalizing s declared with
  | nil => exact ends_pure rfl
  | cons tag tags ih =>
    obtain ⟨hnew, hnodup⟩ := List.nodup_cons.mp hnodup
    obtain ⟨htag, hfree⟩ := List.forall_mem_cons.mp hfree
    rw [List.mapM_cons]
    have hfirst := ends_declareAt_ok tag.span
      (DeclM.gives_declare_free .product tag.name params h htag)
    rw [bind_assoc]
    refine hfirst.bind ?_
    rintro _ s₁ ⟨hlog, ty, -, hdeclaring, hmore, vars, hd, -⟩
    rw [pure_bind]
    refine (ih hdeclaring hnodup fun t ht => ?_).bind fun _ s₂ hlog₂ => ends_pure (hlog₂.trans hlog)
    have hne : t.name ≠ tag.name := fun heq => hnew (List.mem_map.mpr ⟨t, ht, heq⟩)
    exact h.free_of_declare hdeclaring hmore hd hne (hfree t ht)

/-- Tags without fields get their bodies without a report. -/
theorem ends_defineTags_free (tags : List (TypeId × TagDecl)) {rest params : List TypeId}
    (h : s.store.Defining (tags.map (·.1) ++ rest))
    (htags : ∀ tag ∈ tags, s.store.Declares tag.2.name tag.1 .product params ∧ tag.2.fields = [] ∧
      s.store.nominals.bodies[tag.1]? = none) :
    Ends (tags.forM fun tag => defineFields tag.1 tag.2.fields tag.2.span) s fun _ s' =>
      s'.log = s.log ∧ ∀ ty, s.store.nominals.bodies[ty]? = none → ty ∉ tags.map (·.1) →
        s'.store.nominals.bodies[ty]? = none := by
  induction tags generalizing s with
  | nil => exact ends_pure ⟨rfl, fun _ hnone _ => hnone⟩
  | cons tag tags ih =>
    obtain ⟨⟨hd, hfields, hnone⟩, htags⟩ := List.forall_mem_cons.mp htags
    have hquiet : Ends (defineFields tag.1 tag.2.fields tag.2.span) s fun _ s' =>
        s'.log = s.log ∧ s'.store = s.store.setBody tag.1 (.product ⟨[], [], none⟩) := by
      rw [hfields]
      refine Ends.bind (Q := fun types s₁ => types = [] ∧ s₁ = s) ⟨rfl, rfl⟩ ?_
      rintro _ _ ⟨rfl, rfl⟩
      refine (ends_declareAt_ok _ (DeclM.gives_defineProduct_free h.coherent hd hnone)).bind ?_
      rintro _ s₁ ⟨hlog, -, -, hstore⟩
      exact ends_pure ⟨hlog, hstore⟩
    refine ((ends_defineFields tag.2.fields tag.2.span h hd).and hquiet).bind ?_
    rintro _ s₁ ⟨⟨hdefines, -⟩, hlog, hstore⟩
    have hbody : ∀ ty, s.store.nominals.bodies[ty]? = none → tag.1 ≠ ty →
        s₁.store.nominals.bodies[ty]? = none := fun ty hty hne => by
      rw [hstore, bodies_setBody, if_neg hne]
      exact hty
    have hnew := (List.nodup_cons.mp h.nodup).1
    refine (ih hdefines.defining fun t ht => ?_).mono ?_
    · obtain ⟨hd', hfields', hnone'⟩ := htags t ht
      have hne : tag.1 ≠ t.1 := fun heq =>
        hnew (List.mem_append_left _ (List.mem_map.mpr ⟨t, ht, heq.symm⟩))
      exact ⟨hdefines.more.declares hd', hfields', hbody _ hnone' hne⟩
    · rintro _ s₂ ⟨hlog₂, hbodies₂⟩
      refine ⟨hlog₂.trans hlog, fun ty hty hnot => ?_⟩
      rw [List.map_cons, List.mem_cons, not_or] at hnot
      exact hbodies₂ ty (hbody ty hty (Ne.symm hnot.1)) hnot.2

/-- A type variable is read without a report. -/
theorem ends_resolve_var (x : Name) (span : Span) :
    Ends (resolve (.var x) span) s fun ty s' => s'.log = s.log ∧ s.store ≤ s'.store ∧
      s'.store.nominals = s.store.nominals ∧ s'.store.shape ty = .var (.named x) :=
  ⟨rfl, StoreM.intern_le _ _, rfl, shape_namedVar x s.store⟩

/-- So are the types of fields that are written as variables. -/
theorem ends_resolve_vars {fields : List FieldDecl} {xs : List Name}
    (hfields : fields.map (·.written) = xs.map TypeExpr.var) :
    Ends (fields.mapM fun f => resolve f.written f.span) s fun types s' => s'.log = s.log ∧
      s.store ≤ s'.store ∧ s'.store.nominals = s.store.nominals ∧ s'.store.Names xs types := by
  induction fields generalizing s xs with
  | nil =>
    obtain rfl := List.map_eq_nil_iff.mp hfields.symm
    exact ends_pure ⟨rfl, le_rfl, rfl, .nil⟩
  | cons f fields ih =>
    obtain ⟨x, xs, rfl, hf, hfields⟩ := List.map_eq_cons_iff.mp hfields.symm
    rw [List.mapM_cons, show f.written = .var x from hf.symm]
    refine (ends_resolve_var x f.span).bind ?_
    rintro ty s₁ ⟨hlog, hle, hnom, hty⟩
    refine (ih hfields.symm).bind ?_
    rintro types s₂ ⟨hlog₂, hle₂, hnom₂, htypes⟩
    refine ends_pure ⟨hlog₂.trans hlog, hle.trans hle₂, hnom₂.trans hnom, .cons ?_ htypes⟩
    rw [shape_of_le hle₂ (lt_size_of_shape_var hty), hty]

/-- A product whose fields are written as variables gets them without a report. -/
theorem ends_defineFields_vars {ty : TypeId} {name : Name} {params : List TypeId}
    {fields : List FieldDecl} {xs : List Name} (span : Span) (hco : s.store.Coherent)
    (hd : s.store.Declares name ty .product params) (hnone : s.store.nominals.bodies[ty]? = none)
    (hfields : fields.map (·.written) = xs.map TypeExpr.var) :
    Ends (defineFields ty fields span) s fun _ s' => s'.log = s.log ∧ s.store ≤ s'.store ∧
      s'.store.Declares name ty .product params ∧ ∃ types, s'.store.Names xs types ∧
        s'.store.productBody? ty = some ⟨types, fields.map (·.name), none⟩ := by
  refine (ends_resolve_vars hfields).bind ?_
  rintro types s₁ ⟨hlog, hle, hnom, htypes⟩
  have hd₁ := (Advances.of_nominals hle hnom).declares hd
  refine (ends_declareAt_ok span (DeclM.gives_defineProduct_free (hco.of_nominals hle hnom) hd₁
    (by rw [hnom]; exact hnone))).bind ?_
  rintro _ s₂ ⟨hlog₂, -, -, hstore⟩
  refine ends_pure ⟨hlog₂.trans hlog, ?_⟩
  rw [hstore]
  refine ⟨hle, (sameButBodies_setBody _ _ _).declares.mpr hd₁, types, htypes, ?_⟩
  rw [productBody?_eq_some, bodies_setBody, if_pos rfl]

/-- One type is declared without a report and then gets its body. -/
theorem ends_registerTypes_single {d : TypeDecl} {Q : CheckState → Prop}
    (h : s.store.Declaring []) (hclean : s.Clean)
    (hdeclare : Ends (declareType d) s fun _ s' => s'.log = s.log)
    (hdefine : ∀ (pending : PendingType) (s₁ : CheckState), s₁.Clean →
      s₁.store.Declaring pending.ids → pending.For s₁.store d →
        Ends (defineType pending) s₁ fun _ s' => Q s') :
    Ends (registerTypes [d]) s fun _ s' => Q s' := by
  unfold registerTypes
  rw [List.mapM_cons, bind_assoc]
  refine ((ends_declareType d h).and ((ends_declareType_clean d h).and hdeclare)).bind ?_
  rintro made s₁ ⟨⟨hdecl, -⟩, hfor, hlog⟩
  have hclean₁ : s₁.Clean := (congrArg DiagnosticLog.errorCount hlog).trans hclean
  obtain ⟨pending, rfl, hpending⟩ := hfor hclean₁
  have hdeclaring : s₁.store.Declaring pending.ids := by simpa using hdecl.declaring
  change Ends ([pending].forM defineType) s₁ fun _ s' => Q s'
  exact (hdefine pending s₁ hclean₁ hdeclaring hpending).bind fun _ s₂ hs₂ => ends_pure hs₂

/-- The names of a store that declares nothing are free. -/
theorem declared?_eq_none (h : s.store.Declaring []) (name : Name) : s.store.declared? name = none :=
  Option.eq_none_iff_forall_ne_some.mpr fun _ hty =>
    absurd (h.mem_iff.mpr ⟨name, hty⟩) List.not_mem_nil

/-- A product whose fields are written as variables is registered without a report. -/
theorem ends_registerTypes_record {d : TypeDecl} {fields : List FieldDecl} {xs : List Name}
    (h : s.store.Declaring []) (hclean : s.Clean) (hbody : d.body = .product fields)
    (hfields : fields.map (·.written) = xs.map TypeExpr.var) :
    Ends (registerTypes [d]) s fun _ s' => s'.Clean ∧ ∃ ty params types,
      s'.store.Names d.params params ∧ s'.store.Declares d.name ty .product params ∧
        s'.store.Names xs types ∧
        s'.store.productBody? ty = some ⟨types, fields.map (·.name), none⟩ := by
  refine ends_registerTypes_single h hclean ?_ ?_
  · unfold declareType
    rw [hbody]
    refine (ends_declareAt_ok d.span (DeclM.gives_declare_free .product d.name d.params h
      (declared?_eq_none h _))).bind ?_
    rintro _ s₁ ⟨hlog, -⟩
    exact ends_pure hlog
  · intro pending s₁ hclean₁ hdeclaring hpending
    cases pending with
    | sum ty tags span =>
      obtain ⟨_, _, hsum, -⟩ := hpending
      rw [hbody] at hsum
      cases hsum
    | product ty written span =>
      obtain ⟨hwritten, params, hparams, hd⟩ := hpending
      rw [hbody] at hwritten
      obtain rfl := TypeDeclBody.product.inj hwritten
      refine (ends_defineFields_vars span hdeclaring.coherent hd (hdeclaring.bodies ty) hfields).mono ?_
      rintro _ s₂ ⟨hlog₂, hle, hd₂, types, htypes, hbody₂⟩
      refine ⟨?_, ty, params, types, hparams.of_le hle, hd₂, htypes, hbody₂⟩
      rw [CheckState.Clean, hlog₂]
      exact hclean₁

/-- A sum of tags without fields is registered without a report if its names differ. -/
theorem clean_registerTypes_enumeration {d : TypeDecl} {tags : List TagDecl}
    (h : s.store.Declaring []) (hclean : s.Clean) (hbody : d.body = .sum tags)
    (hfields : ∀ tag ∈ tags, tag.fields = []) (hnodup : (d.name :: tags.map (·.name)).Nodup) :
    (registerTypes [d] s).2.Clean := by
  obtain ⟨hnew, hnodup⟩ := List.nodup_cons.mp hnodup
  refine ends_registerTypes_single (Q := CheckState.Clean) h hclean ?_ ?_
  · unfold declareType
    rw [hbody]
    refine (ends_declareAt_ok d.span (DeclM.gives_declare_free .sum d.name d.params h
      (declared?_eq_none h _))).bind ?_
    rintro _ s₁ ⟨hlog, ty, rfl, hdeclaring, hmore, vars, hd, -⟩
    refine (ends_declareTags_free d.params tags hdeclaring hnodup fun tag ht => ?_).bind
      fun _ s₂ hlog₂ => ends_pure (hlog₂.trans hlog)
    have hne : tag.name ≠ d.name := fun heq => hnew (List.mem_map.mpr ⟨tag, ht, heq⟩)
    exact h.free_of_declare hdeclaring hmore hd hne (declared?_eq_none h _)
  · intro pending s₁ hclean₁ hdeclaring hpending
    cases pending with
    | product ty fields span =>
      rw [hpending.1] at hbody
      cases hbody
    | sum ty made span =>
      obtain ⟨params, written, hwritten, -, hd, hmade⟩ := hpending
      rw [hbody] at hwritten
      obtain rfl := TypeDeclBody.sum.inj hwritten
      have hids : s₁.store.Defining (made.map (·.1) ++ [ty]) :=
        (hdeclaring.defining.perm (by simp [PendingType.ids])).perm List.perm_middle.symm
      have htags : ∀ m ∈ made, s₁.store.Declares m.2.name m.1 .product params ∧ m.2.fields = [] ∧
          s₁.store.nominals.bodies[m.1]? = none := fun m hm => by
        obtain ⟨tag, htag, rfl, hdeclares⟩ := exists_mem_of_forall₂ hmade hm
        exact ⟨hdeclares, hfields _ htag, hdeclaring.bodies _⟩
      have hself : ty ∉ made.map (·.1) := fun hmem =>
        (List.nodup_append.mp hids.nodup).2.2 ty hmem ty (List.mem_singleton_self ty) rfl
      refine ((ends_defineTags made hids fun m hm => ⟨_, (htags m hm).1⟩).and
        (ends_defineTags_free made hids htags)).bind ?_
      rintro _ s₂ ⟨⟨hdefines, huntied, -⟩, hlog₂, hkeeps⟩
      have hfree : ∀ tag ∈ made.map (·.1), s₂.store.Untied params tag ∧ tag ∉ [ty] := by
        intro tag htag
        obtain ⟨m, hm, rfl⟩ := List.mem_map.mp htag
        exact ⟨huntied m hm, fun hmem => hself (List.mem_singleton.mp hmem ▸ htag)⟩
      refine (ends_declareAt_ok span (DeclM.gives_defineSum_free hdefines.defining
        (hdefines.more.declares hd) hfree (hkeeps ty (hdeclaring.bodies ty) hself))).bind ?_
      rintro _ s₃ ⟨hlog₃, -⟩
      refine ends_pure ?_
      rw [CheckState.Clean, hlog₃, hlog₂]
      exact hclean₁

end CheckM

end ConstraintTyping
