import ConstraintTyping.Proofs.Types.Fitting

/-!
# Requests that are answered

In a store that fits, a request for an instance is refused at once, because there is no declaration
or the number of arguments is wrong, or it is answered.  On the way bodies are made, also for other
types at the same arguments.  They say what the body of their declaration says, with the arguments
put in (`Store.drawn`), and the bodies that were there say what they said.  `Store.Guides` keeps both
along the recursion, relative to the store in which the request was made.
-/

namespace ConstraintTyping

open Store StoreM DeclM

variable {base st st' : Store} {name : Name} {d ty v tag sum : TypeId} {k : DeclKind} {n : Nat}
  {params args parts as : List TypeId} {b : Body}

/-! ## What a body says -/

/-- A product with other arguments. -/
def TypeTree.withArgs (args : List TypeTree) (t : TypeTree) : TypeTree :=
  match t.shape with
  | .product name _ => .mk (.product name args)
  | _ => t

/-- What a body says: the fields of a product with their names, or the tags of a sum. -/
inductive Content where
  | product (names : List (Option Name)) (fields : List TypeTree)
  | sum (tags : List TypeTree)

namespace Content

/-- What is said of a type that consists of nothing. -/
def empty : DeclKind → Content
  | .product => .product [] []
  | .sum => .sum []

/-- What is said of a declaration, said of it at arguments: the parameters are replaced in the fields
of a product, and the tags of a sum are taken at the arguments. -/
def instantiate (params : List VarIdent) (args : List TypeTree) : Content → Content
  | .product names fields => .product names (fields.map (·.subst (TypeTree.assign .var params args)))
  | .sum tags => .sum (tags.map (·.withArgs args))

theorem instantiate_empty (k : DeclKind) (params : List VarIdent) (args : List TypeTree) :
    (empty k).instantiate params args = empty k := by
  cases k <;> rfl

end Content

/-- What a body says in a store. -/
def Body.content (st : Store) : Body → Content
  | .product body => .product body.fieldNames (body.fields.map st.tree)
  | .sum tags => .sum (tags.map st.tree)

theorem Body.Suits.content_of_le (h : b.Suits st n k) (hle : st ≤ st') :
    b.content st' = b.content st := by
  cases h with
  | product fields => simp only [Body.content, map_tree_of_le hle fields]
  | sum each => simp only [Body.content, map_tree_of_le hle fun tag htag => (each tag htag).lt_size]

namespace Store

/-- What the body of a type says. -/
def content? (st : Store) (ty : TypeId) : Option Content :=
  (st.nominals.bodies[ty]?).map (Body.content st)

/-- What the body of a declaration says at arguments. -/
def drawn (st : Store) (k : DeclKind) (d : TypeId) (params args : List TypeId) : Content :=
  ((st.content? d).getD (.empty k)).instantiate (st.idents params) (args.map st.tree)

theorem isSome_content? : (st.content? ty).isSome = (st.nominals.bodies[ty]?).isSome :=
  Option.isSome_map

theorem Fitting.content?_of_le (h : st.Fitting) (hle : st ≤ st')
    (hbody : st'.nominals.bodies[ty]? = st.nominals.bodies[ty]?) : st'.content? ty = st.content? ty := by
  rw [content?, content?, hbody]
  cases hb : st.nominals.bodies[ty]? with
  | none => rfl
  | some b =>
    obtain ⟨k, -, hsuits⟩ := h.bodies hb
    exact congrArg some (hsuits.content_of_le hle)

/-- Tying a tag to its sum is no part of what its body says. -/
theorem Fitting.content?_bindParent (h : st.Fitting) (tag sum ty : TypeId) :
    (st.bindParent tag sum).content? ty = st.content? ty := by
  have hle := (sameButBodies_bindParent st tag sum).le
  cases hbody : st.productBody? tag with
  | none => rw [bindParent_of_none hbody]
  | some body =>
    by_cases heq : tag = ty
    · subst heq
      have hstored := productBody?_eq_some.mp hbody
      obtain ⟨k, -, hsuits⟩ := h.bodies hstored
      rw [content?, content?, bodies_bindParent hbody, if_pos rfl, hstored]
      exact congrArg some (hsuits.content_of_le hle)
    · exact h.content?_of_le hle (by rw [bodies_bindParent hbody, if_neg heq])

/-- Entering an instance gives it a body unless it has one. -/
theorem Fitting.content?_enterWith (h : st.Fitting) (hnew : st.nominals.variants[(d, args)]? = none)
    (hb : b.Suits st n k) (shape : Shape TypeId) (ty : TypeId) :
    (DeclM.enterWith d args shape b st).2.content? ty = (st.content? ty).or
      (if (DeclM.enterWith d args shape b st).1 = ty then some (b.content st) else none) := by
  have hle := (accrues_enterWith shape b hnew).le
  cases hbody : st.nominals.bodies[ty]? with
  | some old =>
    rw [h.content?_of_le hle (by rw [bodies_enterWith, hbody, Option.some_or]), content?, hbody]
    rfl
  | none =>
    rw [content?, content?, bodies_enterWith, hbody]
    split
    · exact congrArg some (hb.content_of_le hle)
    · rfl

end Store

/-! ## Along the recursion -/

/-- A store on the way of a request at arguments that was made in `base`.  Bodies say what they said
there, and a body that is made says what the body of its declaration says at the arguments. -/
structure Store.Guides (base : Store) (args : List TypeId) (st : Store) : Prop where
  start : base.Fitting
  within : ∀ a ∈ args, a < base.size
  fitting : st.Fitting
  accrues : base.Accrues st
  kept : ∀ {ty : TypeId} {c : Content}, base.content? ty = some c → st.content? ty = some c
  made : ∀ {ty : TypeId} {c : Content}, st.content? ty = some c → base.content? ty = some c ∨
    ∃ name d k params, base.Declares name d k params ∧ st.IsInstance name k args ty ∧
      c = base.drawn k d params args

namespace Store.Guides

theorem refl (h : st.Fitting) (hargs : ∀ a ∈ args, a < st.size) : st.Guides args st where
  start := h
  within := hargs
  fitting := h
  accrues := .refl st
  kept h := h
  made := .inl

theorem args_lt (h : base.Guides args st) : ∀ a ∈ args, a < st.size :=
  fun a ha => lt_size_of_le h.accrues.le (h.within a ha)

/-- What a declaration's body says does not change on the way, unless it had none. -/
theorem content_declares (h : base.Guides args st) (hd : base.Declares name d k params) :
    (st.content? d).getD (.empty k) = (base.content? d).getD (.empty k) := by
  cases hbase : base.content? d with
  | some c => rw [h.kept hbase]
  | none =>
    cases hst : st.content? d with
    | none => rfl
    | some c =>
      rcases h.made hst with hold | ⟨name', d', k', params', hd', hinst, rfl⟩
      · rw [hbase] at hold
        cases hold
      -- the declaration is an instance of itself
      · obtain ⟨rfl, rfl, -⟩ := DeclKind.shape_inj
          (hinst.shape.symm.trans (h.accrues.declaresMore.declares hd).shape)
        obtain ⟨rfl, -, -⟩ := hd.unique hd'
        rw [drawn, hbase]
        exact Content.instantiate_empty _ _ _

theorem drawn_eq (h : base.Guides args st) (hd : base.Declares name d k params) :
    st.drawn k d params args = base.drawn k d params args := by
  rw [drawn, drawn, h.content_declares hd, idents_of_le h.accrues.le hd.params_lt,
    map_tree_of_le h.accrues.le h.within]

/-- A step on the way: bodies say what they said, and new ones what they should. -/
theorem extend (h : base.Guides args st) (h' : st'.Fitting) (haccrues : st.Accrues st')
    (hkept : ∀ {ty : TypeId} {c : Content}, st.content? ty = some c → st'.content? ty = some c)
    (hmade : ∀ {ty : TypeId} {c : Content}, st'.content? ty = some c → st.content? ty = some c ∨
      ∃ name d k params, st.Declares name d k params ∧ st'.IsInstance name k args ty ∧
        c = st.drawn k d params args) : base.Guides args st' where
  start := h.start
  within := h.within
  fitting := h'
  accrues := h.accrues.trans haccrues
  kept hc := hkept (h.kept hc)
  made hc := by
    rcases hmade hc with hold | ⟨name, d, k, params, hd, hinst, rfl⟩
    · refine (h.made hold).imp_right ?_
      rintro ⟨name, d, k, params, hd, hinst, hc⟩
      exact ⟨name, d, k, params, hd, hinst.of_le h.args_lt haccrues.le, hc⟩
    · have hd' := h.start.anchored.declares_of h.accrues.le h.accrues.declared hd
      exact .inr ⟨name, d, k, params, hd', hinst, h.drawn_eq hd'⟩

theorem of_nominals (h : base.Guides args st) (hle : st ≤ st')
    (hnom : st'.nominals = st.nominals) : base.Guides args st' := by
  have hcontent : ∀ ty, st'.content? ty = st.content? ty := fun ty =>
    h.fitting.content?_of_le hle (by rw [hnom])
  exact h.extend (h.fitting.of_nominals hle hnom) (.of_nominals hle hnom)
    (fun {ty c} hc => (hcontent ty).trans hc) fun {ty c} hc => .inl ((hcontent ty).symm.trans hc)

theorem bindParent (h : base.Guides args st) (htag : st.Takes .product n tag)
    (hsum : st.Takes .sum n sum) : base.Guides args (st.bindParent tag sum) := by
  have hcontent := h.fitting.content?_bindParent tag sum
  exact h.extend (h.fitting.bindParent htag hsum) (sameButBodies_bindParent st tag sum).accrues
    (fun {ty c} hc => (hcontent ty).trans hc) fun {ty c} hc => .inl ((hcontent ty).symm.trans hc)

theorem bindParents (h : base.Guides args st) (htags : ∀ tag ∈ parts, st.Takes .product n tag)
    (hsum : st.Takes .sum n sum) : base.Guides args (st.bindParents sum parts) := by
  induction parts generalizing st with
  | nil => exact h
  | cons tag parts ih =>
    obtain ⟨htag, hrest⟩ := List.forall_mem_cons.mp htags
    have hmore := (sameButBodies_bindParent st tag sum).declaresMore
    exact ih (h.bindParent htag hsum) (fun t ht => (hrest t ht).of_more hmore) (hsum.of_more hmore)

/-- An instance is entered with a body that says what it should. -/
theorem enterWith (h : base.Guides args st) (hd : st.Declares name d k params) (hne : params ≠ args)
    (hlen : params.length = args.length) (hnew : st.nominals.variants[(d, args)]? = none)
    (hb : b.Suits st args.length k) (hcontent : b.content st = st.drawn k d params args) :
    base.Guides args (DeclM.enterWith d args (k.shape name args) b st).2 := by
  have hread := h.fitting.content?_enterWith hnew hb (k.shape name args)
  refine h.extend (h.fitting.enterWith hd h.args_lt hne hlen hnew hb)
    (accrues_enterWith (k.shape name args) b hnew) (fun {ty c} hc => ?_) fun {ty c} hc => ?_
  · rw [hread, hc, Option.some_or]
  · rw [hread] at hc
    rcases Option.or_eq_some_iff.mp hc with hold | ⟨-, hc⟩
    · exact .inl hold
    · split at hc
      · next heq =>
        obtain rfl := Option.some.inj hc
        exact .inr ⟨name, d, k, params, hd, heq ▸ isInstance_enterWith d k name b h.args_lt, hcontent⟩
      · cases hc

end Store.Guides

/-! ## Bodies that are made -/

namespace Store.Fitting

/-- The body that is made for a product says what it should, with its fields replaced. -/
theorem content_productOver (h : st.Fitting) (hd : st.Declares name d .product params)
    (hbody : st'.productBody? d = st.productBody? d)
    (hparts : List.Forall₂ (fun f p => st'.tree p =
        (st.tree f).subst (TypeTree.assign .var (st.idents params) (args.map st.tree)))
      (((st.productBody? d).map (·.fields)).getD []) parts) :
    (Body.product (productOver st' d parts)).content st' = st.drawn .product d params args := by
  have hread := map_eq_of_forall₂ hparts
  rw [Body.content, productOver, hbody, drawn, content?]
  cases hb : st.nominals.bodies[d]? with
  | none =>
    have hnone : st.productBody? d = none := by rw [productBody?, hb]
    rw [hnone] at hparts ⊢
    obtain rfl := List.forall₂_nil_left_iff.mp hparts
    rfl
  | some b =>
    obtain ⟨k, hk, hsuits⟩ := h.bodies hb
    obtain rfl := DeclKind.kind_injective (hd.kind.symm.trans hk)
    cases hsuits with
    | product fields parent =>
      rw [productBody?_eq_some.mpr hb] at hread ⊢
      refine congrArg (Content.product _) ?_
      rw [List.map_map]
      exact hread

/-- The body that is made for a sum says what it should, with its tags made at the arguments. -/
theorem content_sum (h : st.Fitting) (hd : st.Declares name d .sum params)
    (hparts : List.Forall₂ (fun tag part => st'.tree part =
        (st.tree tag).withArgs (args.map st.tree)) ((st.sumTags? d).getD []) parts) :
    (Body.sum parts).content st' = st.drawn .sum d params args := by
  have hread := map_eq_of_forall₂ hparts
  rw [Body.content, drawn, content?]
  cases hb : st.nominals.bodies[d]? with
  | none =>
    have hnone : st.sumTags? d = none := by rw [sumTags?, hb]
    rw [hnone] at hparts
    obtain rfl := List.forall₂_nil_left_iff.mp hparts
    rfl
  | some b =>
    obtain ⟨k, hk, hsuits⟩ := h.bodies hb
    obtain rfl := DeclKind.kind_injective (hd.kind.symm.trans hk)
    cases hsuits with
    | sum each =>
      rw [sumTags?_eq_some.mpr hb] at hread
      refine congrArg Content.sum ?_
      rw [List.map_map]
      exact hread

theorem fields_lt (h : st.Fitting) : ∀ f ∈ ((st.productBody? d).map (·.fields)).getD [],
    f < st.size := by
  intro f hf
  cases hbody : st.productBody? d with
  | none =>
    rw [hbody] at hf
    cases hf
  | some body =>
    rw [hbody] at hf
    obtain ⟨k, -, hsuits⟩ := h.bodies (productBody?_eq_some.mp hbody)
    cases hsuits with
    | product fields => exact fields f hf

/-- The sum that a declared product names takes as many arguments. -/
theorem parent_takes (h : st.Fitting) (hd : st.Declares name d .product params) :
    ∀ sum ∈ (st.productBody? d).bind (·.parent), st.Takes .sum params.length sum := by
  intro sum hsum
  obtain ⟨body, hbody, hparent⟩ := Option.bind_eq_some_iff.mp hsum
  obtain ⟨k, -, hsuits⟩ := h.bodies (productBody?_eq_some.mp hbody)
  rw [hd.nominalArgs] at hsuits
  cases hsuits with
  | product _ parent => exact parent sum hparent

/-- The tags of a declared sum take as many arguments. -/
theorem tags_take (h : st.Fitting) (hd : st.Declares name d .sum params) :
    ∀ tag ∈ (st.sumTags? d).getD [], st.Takes .product params.length tag := by
  intro tag htag
  cases htags : st.sumTags? d with
  | none =>
    rw [htags] at htag
    cases htag
  | some tags =>
    rw [htags] at htag
    obtain ⟨k, -, hsuits⟩ := h.bodies (sumTags?_eq_some.mp htags)
    rw [hd.nominalArgs] at hsuits
    cases hsuits with
    | sum each => exact each tag htag

end Store.Fitting

/-- A product at other arguments is that product with other arguments. -/
theorem Store.IsInstance.tree_withArgs (h : st'.IsInstance name .product args v)
    (htag : st.shape tag = DeclKind.product.shape name as)
    (hargs : args.map st'.tree = args.map st.tree) :
    st'.tree v = (st.tree tag).withArgs (args.map st.tree) := by
  have htree : st.tree tag = .mk (.product name (as.map st.tree)) := by
    rw [tree_of_not_qualified (by rw [htag]; rfl), htag]
    rfl
  rw [h.tree_eq, htree, hargs]
  rfl

/-! ## The recursion -/

/-- What an answered request comes to. -/
structure Store.Responds (base : Store) (args : List TypeId) (name : Name) (k : DeclKind)
    (params : List TypeId) (st : Store) (v : TypeId) (st' : Store) : Prop where
  guides : base.Guides args st'
  accrues : st.Accrues st'
  made : st'.IsInstance name k args v
  body : params ≠ args → (st'.nominals.bodies[v]?).isSome = true

namespace Store.Guides

theorem responds_self (h : base.Guides args st) (hd : st.Declares name d k params)
    (heq : params = args) : base.Responds args name k params st d st :=
  ⟨h, .refl st, heq ▸ h.fitting.keyed.isInstance_self hd, fun hne => absurd heq hne⟩

/-- What is entered in the end answers the request. -/
theorem responds (h : base.Guides args st') (haccrues : st.Accrues st')
    (hd : st.Declares name d k params) (hv : st'.nominals.variants[(d, args)]? = some v) :
    base.Responds args name k params st v st' :=
  have hd' := haccrues.declaresMore.declares hd
  ⟨h, haccrues, (h.fitting.keyed.entered hd' hv).2, fun _ => h.fitting.bodied hd' hv⟩

end Store.Guides

namespace DeclM

theorem gives_findOr {E : Store → Prop} {Q : TypeId → Store → Prop}
    {make : Store → TypeId → DeclM TypeId} (hdecl : st.declOf? ty = some d)
    (hlen : (st.nominalArgs d).length = args.length) (hself : st.nominalArgs d = args → Q d st)
    (hfound : ∀ w, st.nominals.variants[(d, args)]? = some w → Q w st)
    (hmake : st.nominalArgs d ≠ args → st.nominals.variants[(d, args)]? = none →
      Gives (make st d) st E Q) : Gives (findOr ty args make) st E Q := by
  have hlook : Gives (declarationFor ty args) st E fun d' st' => d = d' ∧ st = st' := by
    refine gives_get_bind ?_
    simp only [hdecl]
    rw [if_neg (not_not_intro hlen)]
    exact gives_pure ⟨rfl, rfl⟩
  refine hlook.bind ?_
  rintro _ _ ⟨rfl, rfl⟩
  refine gives_get_bind ?_
  by_cases hargs : st.nominalArgs d = args
  · rw [if_pos hargs]
    exact gives_pure (hself hargs)
  rw [if_neg hargs]
  cases hv : st.nominals.variants[(d, args)]? with
  | some w => exact gives_pure (hfound w hv)
  | none => exact hmake hargs hv

theorem gives_enterThen {α : Type} {E : Store → Prop} {Q : α → Store → Prop} {shape : Shape TypeId}
    {rest : TypeId → DeclM α}
    (h : Gives (rest (enterWith d args shape b st).1) (enterWith d args shape b st).2 E Q) :
    Gives (enterThen d args shape b rest) st E Q :=
  h

/-- A product is tied to its sum, which is made at the same arguments. -/
theorem gives_tieTo {inst : TypeId → List TypeId → DeclM TypeId} {parent : Option TypeId}
    (h : base.Guides args st) (hv : st.Takes .product args.length v)
    (hparent : ∀ sum ∈ parent, st.Takes .sum args.length sum)
    (hinst : ∀ {sum sumName as d params}, st.shape sum = DeclKind.sum.shape sumName as →
      st.Declares sumName d .sum params → params.length = args.length →
        Gives (inst sum args) st (fun _ => False) (base.Responds args sumName .sum params st)) :
    Gives (tieTo inst args parent v) st (fun _ => False) fun w st' =>
      w = v ∧ base.Guides args st' ∧ st.Accrues st' := by
  cases parent with
  | none => exact gives_pure ⟨rfl, h, .refl st⟩
  | some sum =>
    obtain ⟨sumName, as, d, params, hsum, hd, hlen⟩ := hparent sum rfl
    refine (hinst hsum hd hlen).bind fun s st₁ hs => gives_modify_bind (gives_pure ⟨rfl, ?_, ?_⟩)
    · have hmore := hs.accrues.declaresMore
      exact hs.guides.bindParent (hv.of_more hmore) (hlen ▸ hs.made.takes (hmore.declares hd))
    · exact hs.accrues.trans (sameButBodies_bindParent st₁ v s).accrues

/-- A declared product whose fields have been replaced is entered, and tied to the sum it is of. -/
theorem gives_variantWith_guidedProduct {inst : TypeId → List TypeId → DeclM TypeId}
    (h : base.Guides args st) (hd : st.Declares name d .product params)
    (hlen : params.length = args.length) (hne : params ≠ args) (hle : st ≤ st')
    (hnom : st'.nominals = st.nominals)
    (hparts : List.Forall₂ (fun f p => p < st'.size ∧ st'.tree p =
        (st.tree f).subst (TypeTree.assign .var (st.idents params) (args.map st.tree)))
      (((st.productBody? d).map (·.fields)).getD []) parts)
    (hinst : ∀ {later sum sumName as d params}, base.Guides args later →
      (later.pending args).card < (st.pending args).card →
      later.shape sum = DeclKind.sum.shape sumName as → later.Declares sumName d .sum params →
      params.length = args.length → Gives (inst sum args) later (fun _ => False)
        (base.Responds args sumName .sum params later)) :
    Gives (variantWith inst d parts args) st' (fun _ => False)
      (base.Responds args name .product params st) := by
  have h' := h.of_nominals hle hnom
  have hbuilt : st.Accrues st' := .of_nominals hle hnom
  have hd' := hbuilt.declaresMore.declares hd
  rw [variantWith_eq]
  refine gives_findOr (h'.fitting.anchored.declOf?_self hd'.declared)
    (by rw [hd'.nominalArgs]; exact hlen) (fun heq => absurd (hd'.nominalArgs ▸ heq) hne)
    (fun w hw => h'.responds hbuilt hd hw) fun _ hnew => ?_
  rw [hd'.kind, hd'.shape, DeclKind.variantShape_shape]
  refine gives_enterThen ?_
  -- the product is entered with its fields replaced
  have hbody : st'.productBody? d = st.productBody? d := by
    rw [Store.productBody?, Store.productBody?, hnom]
  have hsuits : (Body.product (productOver st' d parts)).Suits st' args.length .product := by
    refine .product (fun p hp => ?_) fun sum hsum => absurd hsum (Option.not_mem_none sum)
    obtain ⟨f, -, hlt, -⟩ := exists_mem_of_forall₂ hparts hp
    exact hlt
  have hcontent := h.fitting.content_productOver hd hbody (hparts.imp fun _ _ hp => hp.2)
  have hbase := h.start.anchored.declares_of h.accrues.le h.accrues.declared hd
  have hentered := h'.enterWith hd' hne hlen hnew hsuits
    (hcontent.trans ((h.drawn_eq hbase).trans (h'.drawn_eq hbase).symm))
  have haccrues := accrues_enterWith (DeclKind.product.shape name args)
    (.product (productOver st' d parts)) hnew
  have hcard := card_pending_enterWith (DeclKind.product.shape name args)
    (.product (productOver st' d parts)) hd'.declared hnew
  have hvariants := variants_enterWith d args (DeclKind.product.shape name args)
    (.product (productOver st' d parts)) st'
  have hv := isInstance_enterWith d .product name (.product (productOver st' d parts)) h'.args_lt
  generalize enterWith d args (DeclKind.product.shape name args) _ st' = v
    at hentered haccrues hcard hvariants hv ⊢
  refine (gives_tieTo hentered (hlen ▸ hv.takes (haccrues.declaresMore.declares hd')) ?_ ?_).mono
    (fun _ hf => hf) ?_
  · intro sum hsum
    rw [← hlen]
    exact (h'.fitting.parent_takes hd' sum hsum).of_more haccrues.declaresMore
  · have hless := hbuilt.card_pending_le args
    exact fun {_ _ _ _ _} hsum hd' hlen' => hinst hentered (by omega) hsum hd' hlen'
  · rintro _ st₂ ⟨rfl, h₂, haccrues₂⟩
    refine h₂.responds (hbuilt.trans (haccrues.trans haccrues₂)) hd (haccrues₂.variants ?_)
    rw [hvariants, Std.HashMap.getElem?_insert_self]

/-- A declared sum whose tags have been made is entered, and the tags are tied to it. -/
theorem gives_variantWith_guidedSum (inst : TypeId → List TypeId → DeclM TypeId)
    (h : base.Guides args st) (hd : st.Declares name d .sum params)
    (hlen : params.length = args.length) (hne : params ≠ args) (hmade : st.Accrues st')
    (h' : base.Guides args st')
    (hparts : List.Forall₂ (fun tag part => st'.Takes .product args.length part ∧
        st'.tree part = (st.tree tag).withArgs (args.map st.tree)) ((st.sumTags? d).getD []) parts) :
    Gives (variantWith inst d parts args) st' (fun _ => False)
      (base.Responds args name .sum params st) := by
  have hd' := hmade.declaresMore.declares hd
  have htakes : ∀ part ∈ parts, st'.Takes .product args.length part := fun part hpart => by
    obtain ⟨tag, -, htakes, -⟩ := exists_mem_of_forall₂ hparts hpart
    exact htakes
  rw [variantWith_eq]
  refine gives_findOr (h'.fitting.anchored.declOf?_self hd'.declared)
    (by rw [hd'.nominalArgs]; exact hlen) (fun heq => absurd (hd'.nominalArgs ▸ heq) hne)
    (fun w hw => h'.responds hmade hd hw) fun _ hnew => ?_
  rw [hd'.kind, hd'.shape, DeclKind.variantShape_shape]
  refine gives_enterThen (gives_modify_bind (gives_pure ?_))
  -- the sum is entered with its tags made
  have hcontent := h.fitting.content_sum hd (hparts.imp fun _ _ hp => hp.2)
  have hbase := h.start.anchored.declares_of h.accrues.le h.accrues.declared hd
  have hentered := h'.enterWith hd' hne hlen hnew (.sum htakes)
    (hcontent.trans ((h.drawn_eq hbase).trans (h'.drawn_eq hbase).symm))
  have haccrues := accrues_enterWith (DeclKind.sum.shape name args) (.sum parts) hnew
  have hvariants := variants_enterWith d args (DeclKind.sum.shape name args) (.sum parts) st'
  have hv := isInstance_enterWith d .sum name (.sum parts) h'.args_lt
  generalize enterWith d args (DeclKind.sum.shape name args) _ st' = v
    at hentered haccrues hvariants hv ⊢
  have hsum := hv.takes (haccrues.declaresMore.declares hd')
  rw [hlen] at hsum
  have hsame := sameButBodies_bindParents v.2 v.1 parts
  refine (hentered.bindParents (fun part hpart => (htakes part hpart).of_more
    haccrues.declaresMore) hsum).responds (hmade.trans (haccrues.trans hsame.accrues)) hd
      (hsame.accrues.variants ?_)
  rw [hvariants, Std.HashMap.getElem?_insert_self]

/-- In a store that fits, no request for an instance of a declared product or sum is refused on the
way. -/
theorem gives_instantiateWithin_guided (depth : Nat) (h : base.Guides args st)
    (hty : st.shape ty = k.shape name as) (hd : st.Declares name d k params)
    (hlen : params.length = args.length)
    (hdepth : 2 * (st.pending args).card + leastDepth k ≤ depth) :
    Gives (instantiateWithin depth ty args) st (fun _ => False)
      (base.Responds args name k params st) := by
  induction depth generalizing st ty name d k params as with
  | zero => cases k <;> simp [leastDepth] at hdepth
  | succ depth ih =>
    rw [instantiateWithin_succ]
    refine gives_findOr (h.fitting.anchored.declOf?_of_declares hty hd)
      (by rw [hd.nominalArgs]; exact hlen) (fun heq => h.responds_self hd (hd.nominalArgs ▸ heq))
      (fun w hw => h.responds (.refl st) hd hw) fun hne _ => ?_
    rw [hd.nominalArgs] at hne
    rw [hd.kind, hd.nominalArgs]
    cases k with
    | product =>
      refine (gives_substituteEach (h.fitting.keyed.vars hd) h.args_lt h.fitting.fields_lt).bind ?_
      rintro parts st₁ ⟨⟨hle, hnom⟩, hparts, -⟩
      -- the sum of a product is made when the product is there, and one fewer is pending
      refine gives_variantWith_guidedProduct h hd hlen hne hle hnom hparts
        fun {_ _ _ _ _ _} hlater hless hsum hd' hlen' => ih hlater hsum hd' hlen' ?_
      simp only [leastDepth] at hdepth ⊢
      omega
    | sum =>
      have hloop := gives_mapM_along (E := fun _ => False) (R := Accrues) .refl .trans
        ((st.sumTags? d).getD []) st
        (f := fun tag => instantiateWithin depth tag args) (I := base.Guides args)
        (P := fun tag part st' => st'.Takes .product args.length part ∧
          st'.tree part = (st.tree tag).withArgs (args.map st.tree)) h ?_ ?_
      · refine hloop.bind ?_
        rintro parts st₁ ⟨hmade, h₁, hparts⟩
        exact gives_variantWith_guidedSum _ h hd hlen hne hmade h₁ hparts
      · rintro tag part st₁ st₂ haccrues ⟨htakes, htree⟩
        exact ⟨htakes.of_more haccrues.declaresMore,
          (tree_of_le haccrues.le htakes.lt_size).trans htree⟩
      · rintro tag htag st₁ haccrues h₁
        obtain ⟨tagName, tagArgs, dt, tagParams, hshape, hdt, hlent⟩ := h.fitting.tags_take hd tag htag
        have hmore := haccrues.declaresMore
        have hcard := haccrues.card_pending_le args
        have hshape₁ := (shape_of_le haccrues.le (lt_size_of_shape_nominal hshape)).trans hshape
        refine (ih h₁ hshape₁ (hmore.declares hdt) (hlent.trans hlen) ?_).mono (fun _ hf => hf) ?_
        · simp only [leastDepth] at hdepth ⊢
          omega
        · intro part st₂ hpart
          have haccrues₂ := haccrues.trans hpart.accrues
          refine ⟨hpart.accrues, hpart.guides, ?_, hpart.made.tree_withArgs hshape
            (map_tree_of_le haccrues₂.le h.args_lt)⟩
          rw [← hlen, ← hlent]
          exact hpart.made.takes (haccrues₂.declaresMore.declares hdt)

end DeclM

end ConstraintTyping
