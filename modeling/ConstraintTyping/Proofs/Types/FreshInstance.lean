import ConstraintTyping.Proofs.Types.Instances
import ConstraintTyping.Proofs.Types.Variables

/-!
# Instances at fresh variables

When every declaration has its body, the instance of a product at variables that are new to the
store can always be made.  Its fields are those of the declaration with the parameters replaced, and
a tag is tied to the instance of its sum at the same variables.

The recursion goes from a tag to its sum and from a sum to its tags.  A tag is entered before its
sum is made, so every second step enters one more declaration, and the declarations that are not
entered yet bound the depth that is still needed.
-/

namespace ConstraintTyping

open TypeTree

namespace Store

variable {st st' : Store} {name : Name} {d v : TypeId} {k : DeclKind}
  {params args : List TypeId} {decl body : ProductBody}

/-- A product body is that of a declaration at arguments: the same names, the fields with the
parameters replaced, as trees and as types, and for a tag that is tied to a sum the instance of its sum. -/
structure IsBodyAt (st : Store) (decl : ProductBody) (params args : List TypeId)
    (body : ProductBody) : Prop where
  fieldNames : body.fieldNames = decl.fieldNames
  fields : body.fields.map st.tree = decl.fields.map fun f =>
    (st.tree f).subst (assign var (st.idents params) (args.map st.tree))
  replaced : List.Forall₂ (DeclM.Replaced (params.zip args) st) decl.fields body.fields
  parent : ∀ s, body.parent = some s → ∃ sum sumName, decl.parent = some sum ∧
    st.Declares sumName sum .sum params ∧ st.IsInstance sumName .sum args s

theorem IsBodyAt.of_advances (h : st.IsBodyAt decl params args body) (hadv : st.Advances st')
    (hparams : ∀ p ∈ params, p < st.size) (hargs : ∀ a ∈ args, a < st.size)
    (hdecl : ∀ f ∈ decl.fields, f < st.size) (hbody : ∀ f ∈ body.fields, f < st.size) :
    st'.IsBodyAt decl params args body where
  fieldNames := h.fieldNames
  fields := by
    rw [idents_of_le hadv.le hparams, map_tree_of_le hadv.le hargs, map_tree_of_le hadv.le hbody,
      h.fields]
    exact List.map_congr_left fun f hf => by rw [tree_of_le hadv.le (hdecl f hf)]
  replaced := h.replaced.imp fun _ _ h => h.of_le hadv.le
  parent s hs := by
    obtain ⟨sum, sumName, hp, hd, hinst⟩ := h.parent s hs
    exact ⟨sum, sumName, hp, hadv.declares hd, hinst.of_le hargs hadv.le⟩

theorem Coherent.fields_lt (hco : st.Coherent) (hb : st.productBody? d = some body) :
    ∀ f ∈ body.fields, f < st.size := fun f hf =>
  (hco.bodies (productBody?_eq_some.mp hb)).2 f (List.mem_append_left _ hf)

/-- The arguments are variables over which nothing was made yet, except by the instance that is in
the making: what is entered at them has its body, and what is not has none. -/
structure FreshAt (st : Store) (args : List TypeId) : Prop where
  coherent : st.Coherent
  complete : st.Complete
  isVar : ∀ a ∈ args, st.isVar a = true
  foreign : ∀ {name : Name} {d : TypeId} {k : DeclKind} {params : List TypeId},
    st.Declares name d k params → params ≠ args
  made : ∀ {name : Name} {d v : TypeId} {params : List TypeId},
    st.Declares name d .product params → st.nominals.variants[(d, args)]? = some v →
      ∃ decl body, st.productBody? d = some decl ∧ st.productBody? v = some body ∧
        st.IsBodyAt decl params args body
  unmade : ∀ {name : Name} {d v : TypeId} {k : DeclKind} {params : List TypeId},
    st.Declares name d k params → st.nominals.variants[(d, args)]? = none →
      st.shape v = k.shape name args → st.nominals.bodies[v]? = none

namespace FreshAt

variable (h : st.FreshAt args)
include h

theorem args_lt : ∀ a ∈ args, a < st.size := fun a ha => lt_size_of_isVar (h.isVar a ha)

theorem args_whole : ∀ a ∈ args, st.Whole a := fun a ha => by
  obtain ⟨x, hx⟩ := Shape.isVar_iff.mp (h.isVar a ha)
  refine ⟨h.args_lt a ha, ?_⟩
  rw [tree_of_var hx]
  exact faultless_var x

theorem map_bare : args.map st.bare = args := by
  refine (List.map_congr_left fun a ha => ?_).trans (List.map_id args)
  obtain ⟨x, hx⟩ := Shape.isVar_iff.mp (h.isVar a ha)
  exact bare_of_not_qualified (by rw [hx]; rfl)

/-- No instance at fresh variables is a declaration. -/
theorem not_declared {name' : Name} (hv : st.IsInstance name k args v) :
    st.declared? name' ≠ some v := by
  intro hname'
  obtain ⟨-, k', params', hdecl, -⟩ := h.coherent.declares hname'
  obtain ⟨-, -, hargs⟩ := DeclKind.shape_inj (hv.shape.symm.trans hdecl.shape)
  rw [h.map_bare] at hargs
  exact h.foreign hdecl hargs.symm

theorem isInstance (hd : st.Declares name d k params)
    (hv : st.nominals.variants[(d, args)]? = some v) : st.IsInstance name k args v := by
  obtain ⟨hlt, -, hshape⟩ := h.coherent.variants hv
  exact ⟨hlt, hshape _ _ _ hd⟩

omit h in
/-- An instance is an instance of one declaration only. -/
theorem unique {name' : Name} {k' : DeclKind} {params' : List TypeId} {d' : TypeId}
    (hd : st.Declares name d k params) (hd' : st.Declares name' d' k' params')
    (hv : st.IsInstance name k args v) (hv' : st.IsInstance name' k' args v) : d = d' := by
  obtain ⟨-, rfl, -⟩ := DeclKind.shape_inj (hv.shape.symm.trans hv'.shape)
  exact (hd.unique hd').1

/-- Types that are added have no bodies. -/
theorem of_nominals (hle : st ≤ st') (hnom : st'.nominals = st.nominals) : st'.FreshAt args := by
  have hadv := Advances.of_nominals hle hnom
  have hback : ∀ {name d k params}, st'.Declares name d k params → st.Declares name d k params :=
    fun hd => hadv.declares_of h.coherent hd
  constructor
  · exact h.coherent.of_nominals hle hnom
  · exact hadv.complete h.coherent h.complete
  · intro a ha
    rw [isVar_of_le hle (h.args_lt a ha)]
    exact h.isVar a ha
  · exact fun hd => h.foreign (hback hd)
  · intro name d v params hd hv
    rw [hnom] at hv
    obtain ⟨decl, body, hdecl, hbody, hat⟩ := h.made (hback hd) hv
    have hat' := hat.of_advances hadv (hback hd).params_lt h.args_lt (h.coherent.fields_lt hdecl)
      (h.coherent.fields_lt hbody)
    refine ⟨decl, body, ?_, ?_, hat'⟩
    · rw [productBody?_eq_some, hnom, ← productBody?_eq_some]
      exact hdecl
    · rw [productBody?_eq_some, hnom, ← productBody?_eq_some]
      exact hbody
  · intro name d v k params hd hv hshape
    rw [hnom] at hv ⊢
    cases hb : st.nominals.bodies[v]? with
    | none => rfl
    | some b =>
      have hlt := (h.coherent.bodies hb).1
      rw [shape_of_le hle hlt] at hshape
      rw [← hb]
      exact h.unmade (hback hd) hv hshape

/-- Tying a made tag to the made instance of its sum. -/
theorem bindParent {sum s : TypeId} {sumName : Name} (hd : st.Declares name d .product params)
    (hv : st.nominals.variants[(d, args)]? = some v) (hdecl : st.productBody? d = some decl)
    (hparent : decl.parent = some sum) (hsum : st.Declares sumName sum .sum params)
    (hs : st.IsInstance sumName .sum args s) : (st.bindParent v s).FreshAt args := by
  have hvinst := h.isInstance hd hv
  have htied : ∀ name' body', st.declared? name' = some v → st.productBody? v = some body' →
      body'.parent.isSome = true := fun name' _ hname' => absurd hname' (h.not_declared hvinst)
  have hkeep := keepsDeclared_bindParent st v s htied (hs.whole h.args_whole)
  have hadv := hkeep.advances
  have hback : ∀ {name d k params}, (st.bindParent v s).Declares name d k params →
      st.Declares name d k params := fun hd => hadv.declares_of h.coherent hd
  obtain ⟨decl₀, body, hdecl₀, hbody, hat⟩ := h.made hd hv
  rw [hdecl] at hdecl₀
  obtain rfl := Option.some.inj hdecl₀
  constructor
  · exact h.coherent.bindParent htied (hs.whole h.args_whole)
  · exact hadv.complete h.coherent h.complete
  · intro a ha
    rw [isVar_of_le hadv.le (h.args_lt a ha)]
    exact h.isVar a ha
  · exact fun hd => h.foreign (hback hd)
  · intro name' d' v' params' hd' hv'
    rw [hkeep.variants] at hv'
    obtain ⟨decl', body', hdecl', hbody', hat'⟩ := h.made (hback hd') hv'
    have hat'' := hat'.of_advances hadv (hback hd').params_lt h.args_lt
      (h.coherent.fields_lt hdecl') (h.coherent.fields_lt hbody')
    by_cases hvv : v = v'
    · subst hvv
      obtain rfl := unique hd (hback hd') hvinst (h.isInstance (hback hd') hv')
      obtain ⟨-, -, rfl⟩ := hd.unique_of_id (hback hd')
      rw [hdecl] at hdecl'
      obtain rfl := Option.some.inj hdecl'
      rw [hbody] at hbody'
      obtain rfl := Option.some.inj hbody'
      refine ⟨decl, { body with parent := body.parent.or (some s) },
        hadv.productBody? hd.declared hdecl, ?_, hat''.fieldNames, hat''.fields,
        hat''.replaced, fun s' hs' => ?_⟩
      · rw [productBody?_eq_some, bodies_bindParent hbody, if_pos rfl]
      · cases hp : body.parent with
        | some s₀ =>
          refine hat''.parent s' ?_
          simpa [hp] using hs'
        | none =>
          obtain rfl : s = s' := by simpa [hp] using hs'
          exact ⟨sum, sumName, hparent, hadv.declares hsum, hs.of_le h.args_lt hadv.le⟩
    · refine ⟨decl', body', hadv.productBody? (hback hd').declared hdecl', ?_, hat''⟩
      rw [productBody?_eq_some, bodies_bindParent hbody, if_neg hvv, ← productBody?_eq_some]
      exact hbody'
  · intro name' d' w k' params' hd' hw hshape
    rw [hkeep.variants] at hw
    have hshape : st.shape w = k'.shape name' args := by
      rw [Store.shape, ← hkeep.table]
      exact hshape
    have hnone := h.unmade (hback hd') hw hshape
    rw [bodies_bindParent hbody]
    by_cases hvw : v = w
    · subst hvw
      rw [productBody?_eq_some.mp hbody] at hnone
      cases hnone
    · rw [if_neg hvw]
      exact hnone

omit h in
theorem bodies_enterWith (d : TypeId) (args : List TypeId) (shape : Shape TypeId) (b : Body)
    (st : Store) (x : TypeId) :
    (DeclM.enterWith d args shape b st).2.nominals.bodies[x]? =
      (st.nominals.bodies[x]?).or
        (if (DeclM.enterWith d args shape b st).1 = x then some b else none) :=
  bodies_ensureBody _ b _ x

/-- Entering one more declaration, with a body that is the declaration's at the arguments. -/
theorem enterWith {b : Body} (hd : st.Declares name d k params)
    (hnew : st.nominals.variants[(d, args)]? = none) (hparts : ∀ c ∈ b.parts, c < st.size)
    (hwhole : st.Faultless → ∀ c ∈ b.parts, (st.tree c).Faultless)
    (hbody : k = .product → ∃ decl body, b = .product body ∧ st.productBody? d = some decl ∧
      st.IsBodyAt decl params args body) :
    let v := DeclM.enterWith d args (k.shape name args) b st
    (st.Advances v.2 ∧ v.2.FreshAt args) ∧ v.2.nominals.variants[(d, args)]? = some v.1 ∧
      v.2.nominals.bodies[v.1]? = some b := by
  have hsome : st.nominals.bodies[d]? ≠ none := by
    cases k with
    | product =>
      obtain ⟨body, hb⟩ := h.complete.product hd
      rw [productBody?_eq_some.mp hb]
      exact Option.some_ne_none _
    | sum =>
      obtain ⟨tags, hb⟩ := h.complete.sum hd
      rw [sumTags?_eq_some.mp hb]
      exact Option.some_ne_none _
  obtain ⟨⟨hadv, hco⟩, hinst⟩ := DeclM.made_enterWith _ h.coherent hd h.args_lt hnew hparts
    hwhole fun hnone => absurd hnone hsome
  have hvariants := DeclM.variants_enterWith d args (k.shape name args) b st
  have hbodies := bodies_enterWith d args (k.shape name args) b st
  intro v
  change v.2.nominals.variants = st.nominals.variants.insert (d, args) v.1 at hvariants
  change ∀ x, v.2.nominals.bodies[x]? =
    (st.nominals.bodies[x]?).or (if v.1 = x then some b else none) at hbodies
  change st.Advances v.2 at hadv
  change v.2.Coherent at hco
  change v.2.IsInstance name k args v.1 at hinst
  generalize v = v at *
  have hback : ∀ {name d k params}, v.2.Declares name d k params → st.Declares name d k params :=
    fun hd => hadv.declares_of h.coherent hd
  have hbare : args.map v.2.bare = args :=
    (List.map_congr_left fun a ha => bare_of_le hadv.le (h.args_lt a ha)).trans h.map_bare
  -- a body at the new instance would belong to an instance that is entered already
  have hunmade : ∀ {name' d' k' params' w}, st.Declares name' d' k' params' →
      st.nominals.variants[(d', args)]? = none → v.2.shape w = k'.shape name' args →
      st.nominals.bodies[w]? = none := by
    intro name' d' k' params' w hd' hv' hshape
    cases hb : st.nominals.bodies[w]? with
    | none => rfl
    | some b' =>
      rw [shape_of_le hadv.le (h.coherent.bodies hb).1] at hshape
      rw [← hb]
      exact h.unmade hd' hv' hshape
  have hvshape : v.2.shape v.1 = k.shape name args := by rw [hinst.shape, hbare]
  have hvbody : v.2.nominals.bodies[v.1]? = some b := by
    rw [hbodies, hunmade hd hnew hvshape, if_pos rfl]
    rfl
  have hventered : v.2.nominals.variants[(d, args)]? = some v.1 := by
    rw [hvariants, Std.HashMap.getElem?_insert_self]
  refine ⟨⟨hadv, hco, hadv.complete h.coherent h.complete, ?_, ?_, ?_, ?_⟩, hventered, hvbody⟩
  · intro a ha
    rw [isVar_of_le hadv.le (h.args_lt a ha)]
    exact h.isVar a ha
  · exact fun hd => h.foreign (hback hd)
  · intro name' d' v' params' hd' hv'
    by_cases hdd : d = d'
    · subst hdd
      obtain ⟨rfl, rfl, rfl⟩ := hd.unique_of_id (hback hd')
      rw [hventered] at hv'
      obtain rfl := Option.some.inj hv'
      obtain ⟨decl, body, rfl, hdecl, hat⟩ := hbody rfl
      refine ⟨decl, body, hadv.productBody? hd.declared hdecl, productBody?_eq_some.mpr hvbody, ?_⟩
      exact hat.of_advances hadv hd.params_lt h.args_lt (h.coherent.fields_lt hdecl)
        fun f hf => hparts f (List.mem_append_left _ hf)
    · rw [hvariants, Std.HashMap.getElem?_insert, if_neg (by simpa using hdd)] at hv'
      obtain ⟨decl, body, hdecl, hbody, hat⟩ := h.made (hback hd') hv'
      refine ⟨decl, body, hadv.productBody? (hback hd').declared hdecl, ?_, ?_⟩
      · rw [productBody?_eq_some, hbodies, productBody?_eq_some.mp hbody]
        rfl
      · exact hat.of_advances hadv (hback hd').params_lt h.args_lt (h.coherent.fields_lt hdecl)
          (h.coherent.fields_lt hbody)
  · intro name' d' w k' params' hd' hw hshape
    rw [hvariants, Std.HashMap.getElem?_insert] at hw
    split at hw
    · cases hw
    · next hdd =>
      rw [hbodies, hunmade (hback hd') hw hshape, Option.none_or]
      refine if_neg fun hvw => hdd ?_
      subst hvw
      obtain ⟨-, rfl, -⟩ := DeclKind.shape_inj (hvshape.symm.trans hshape)
      rw [(hd.unique (hback hd')).1]
      exact beq_self_eq_true _

end FreshAt

end Store

namespace DeclM

open Store StoreM

variable {st : Store} {name : Name} {d : TypeId} {k : DeclKind} {params args : List TypeId}

/-- What making an instance at fresh variables comes to: the declaration is entered, and a tag that
was not is tied to its sum. -/
structure Enters (args : List TypeId) (d : TypeId) (st : Store) (v : TypeId) (st' : Store) :
    Prop where
  advances : st.Advances st'
  fresh : st'.FreshAt args
  entered : st'.nominals.variants[(d, args)]? = some v
  tied : st.nominals.variants[(d, args)]? = none → ∀ decl sum, st.productBody? d = some decl →
    decl.parent = some sum → ∃ body s, st'.productBody? v = some body ∧ body.parent = some s

/-- Finishing a product from its replaced fields, given that its sum can be made once the product is
entered. -/
theorem enters_variantWith_product {inst : TypeId → List TypeId → DeclM TypeId}
    {parts : List TypeId} {decl : ProductBody} (h : st.FreshAt args)
    (hd : st.Declares name d .product params) (hlen : params.length = args.length)
    (hnew : st.nominals.variants[(d, args)]? = none) (hdecl : st.productBody? d = some decl)
    (hparts : ∀ c ∈ parts, c < st.size)
    (hread : parts.map st.tree = decl.fields.map fun f =>
      (st.tree f).subst (assign var (st.idents params) (args.map st.tree)))
    (hreplaced : List.Forall₂ (Replaced (params.zip args) st) decl.fields parts)
    (hinst : ∀ sumName sum st', st'.FreshAt args → st'.Declares sumName sum .sum params →
      (st'.pending args).card < (st.pending args).card →
      Gives (inst sum args) st' (fun _ => False) (Enters args sum st')) :
    Gives (variantWith inst d parts args) st (fun _ => False) (Enters args d st) := by
  have hat : st.IsBodyAt decl params args (productOver st d parts) := by
    refine ⟨?_, hread, hreplaced, fun s hs => nomatch hs⟩
    rw [productOver, hdecl]
    rfl
  refine gives_variantWith_product (h.coherent.declOf?_self hd.declared) hd (absurd hlen)
    (fun hp => absurd hp (h.foreign hd))
    (fun w hw => by rw [hnew] at hw; cases hw) fun _ _ _ => ?_
  have hwhole : st.Faultless → ∀ c ∈ parts, (st.tree c).Faultless := by
    intro hst c hc
    have hmem : st.tree c ∈ parts.map st.tree := List.mem_map_of_mem hc
    rw [hread] at hmem
    obtain ⟨f, hf, hfc⟩ := List.mem_map.mp hmem
    have hfwhole := hst d _ (productBody?_eq_some.mp hdecl) f (List.mem_append_left _ hf)
    rw [← hfc]
    exact hfwhole.2.assign _ (List.forall_mem_map.mpr fun a ha => (h.args_whole a ha).2)
  have henter := h.enterWith (b := .product (productOver st d parts)) hd hnew
    (by simpa [Body.parts, productOver] using hparts)
    (by simpa [Body.parts, productOver] using hwhole) fun _ => ⟨decl, _, rfl, hdecl, hat⟩
  generalize enterWith d args (DeclKind.product.shape name args) _ st = v at henter ⊢
  obtain ⟨⟨hadv, hfresh⟩, hentered, hbody⟩ := henter
  rw [hdecl]
  refine ⟨fun hnone => ⟨hadv, hfresh, hentered, fun _ decl' sum hdecl' hp => ?_⟩, ?_⟩
  · rw [hdecl] at hdecl'
    obtain rfl := Option.some.inj hdecl'
    rw [Option.bind_some, hp] at hnone
    cases hnone
  · intro sum hsum
    rw [Option.bind_some] at hsum
    obtain ⟨sumName, hsumDecl⟩ := h.coherent.parent hd hdecl hsum
    refine (hinst sumName sum v.2 hfresh (hadv.declares hsumDecl)
      (card_pending_lt hadv.declared hadv.variants hd.declared hnew hentered)).mono
        (fun _ hf => hf) fun s st' hs => ?_
    have hadv' := hadv.trans hs.advances
    have hd' := hadv'.declares hd
    have hdecl' := hadv'.productBody? hd.declared hdecl
    have hv' := hs.advances.variants hentered
    have hsinst := hs.fresh.isInstance (hadv'.declares hsumDecl) hs.entered
    obtain ⟨decl₀, body, hdecl₀, hbody', -⟩ := hs.fresh.made hd' hv'
    have htied := keepsDeclared_bindParent st' v.1 s
      (fun name' _ hname' => absurd hname' (hs.fresh.not_declared (hs.fresh.isInstance hd' hv')))
      (hsinst.whole hs.fresh.args_whole)
    refine ⟨hadv'.trans htied.advances,
      hs.fresh.bindParent hd' hv' hdecl' hsum (hadv'.declares hsumDecl) hsinst, ?_, ?_⟩
    · rw [htied.variants]
      exact hv'
    · intro _ _ _ _ _
      refine ⟨{ body with parent := body.parent.or (some s) }, body.parent.getD s,
        productBody?_eq_some.mpr ?_, ?_⟩
      · rw [bodies_bindParent hbody', if_pos rfl]
      · cases hp : body.parent <;> rfl

/-- Finishing a sum from its made tags. -/
theorem enters_variantWith_sum {inst : TypeId → List TypeId → DeclM TypeId}
    {tags parts : List TypeId} (h : st.FreshAt args) (hd : st.Declares name d .sum params)
    (hlen : params.length = args.length) (htags : st.sumTags? d = some tags)
    (hparts : List.Forall₂ (fun tag part => st.nominals.variants[(tag, args)]? = some part)
      tags parts) :
    Gives (variantWith inst d parts args) st (fun _ => False) (Enters args d st) := by
  have hnotproduct : ∀ decl, st.productBody? d ≠ some decl := by
    intro decl hdecl
    rw [productBody?_eq_some, sumTags?_eq_some.mp htags] at hdecl
    cases hdecl
  have hpart : ∀ part ∈ parts, ∃ tagName tag decl, st.Declares tagName tag .product params ∧
      st.nominals.variants[(tag, args)]? = some part ∧ st.productBody? tag = some decl ∧
      decl.parent = some d := by
    intro part hmem
    obtain ⟨tag, htag, hv⟩ := exists_mem_of_forall₂ hparts hmem
    obtain ⟨tagName, decl, hdecl, hbody, hp⟩ := h.coherent.tags hd htags htag
    exact ⟨tagName, tag, decl, hdecl, hv, hbody, hp⟩
  refine gives_variantWith_sum (h.coherent.declOf?_self hd.declared) hd (absurd hlen)
    (fun hp => absurd hp (h.foreign hd))
    (fun w hw => ⟨.refl st, h, hw, fun _ decl _ hdecl => absurd hdecl (hnotproduct decl)⟩)
    fun hnew _ _ => ?_
  have hwhole : ∀ part ∈ parts, st.Whole part := by
    intro part hmem
    obtain ⟨tagName, tag, decl, htag, hv, -⟩ := hpart part hmem
    exact (h.isInstance htag hv).whole h.args_whole
  have henter := h.enterWith (b := .sum parts) hd hnew (fun part hmem => (hwhole part hmem).1)
    (fun _ part hmem => (hwhole part hmem).2) (fun h => by cases h)
  generalize enterWith d args (DeclKind.sum.shape name args) _ st = v at henter ⊢
  obtain ⟨⟨hadv, hfresh⟩, hentered, -⟩ := henter
  -- one tag after the other is tied to the new instance
  suffices hfold : ∀ (rest : List TypeId) (st' : Store), (∀ part ∈ rest, part ∈ parts) → v.2.Advances st' →
      st'.FreshAt args → st'.nominals.variants = v.2.nominals.variants →
      let last := rest.foldl (fun st tag => st.bindParent tag v.1) st'
      v.2.Advances last ∧ last.FreshAt args ∧
        last.nominals.variants = v.2.nominals.variants by
    obtain ⟨hadv', hfresh', hvariants⟩ :=
      hfold parts v.2 (fun _ hp => hp) (.refl _) hfresh rfl
    exact ⟨hadv.trans hadv', hfresh', by rw [hvariants]; exact hentered,
      fun _ decl _ hdecl => absurd hdecl (hnotproduct decl)⟩
  intro rest
  induction rest with
  | nil => exact fun st' _ hadv' hfresh' hvariants => ⟨hadv', hfresh', hvariants⟩
  | cons part rest ih =>
    intro st' hsub hadv' hfresh' hvariants
    obtain ⟨tagName, tag, decl, htag, hv, hdecl, hp⟩ := hpart part (hsub part List.mem_cons_self)
    have hadv'' := hadv.trans hadv'
    have hv' := hadv''.variants hv
    have htag' := hadv''.declares htag
    have hsum : st'.IsInstance name .sum args v.1 :=
      hfresh'.isInstance (hadv''.declares hd) (by rw [hvariants]; exact hentered)
    have htied := keepsDeclared_bindParent st' part v.1
      (fun name' _ hname' => absurd hname' (hfresh'.not_declared (hfresh'.isInstance htag' hv')))
      (hsum.whole hfresh'.args_whole)
    exact ih _ (fun q hq => hsub q (List.mem_cons_of_mem part hq)) (hadv'.trans htied.advances)
      (hfresh'.bindParent htag' hv' (hadv''.productBody? htag.declared hdecl) hp
        (hadv''.declares hd) hsum) (htied.variants.trans hvariants)

/-- At fresh variables every declaration can be made, given a depth of two for each declaration that
is pending. -/
theorem gives_instantiateWithin_fresh (depth : Nat) (h : st.FreshAt args)
    (hd : st.Declares name d k params) (hlen : params.length = args.length)
    (hdepth : 2 * (st.pending args).card + leastDepth k ≤ depth) :
    Gives (instantiateWithin depth d args) st (fun _ => False) (Enters args d st) := by
  induction depth generalizing st name d k params with
  | zero => cases k <;> simp [leastDepth] at hdepth
  | succ depth ih =>
    have hlater : ∀ st', st.Advances st' → (st'.pending args).card ≤ (st.pending args).card :=
      fun st' hadv => Finset.card_le_card (pending_subset hadv.declared hadv.variants)
    refine gives_instantiateWithin_succ (h.coherent.declOf?_self hd.declared) hd (absurd hlen)
      (fun hp => absurd hp (h.foreign hd))
      (fun _ w hw => ⟨.refl st, h, hw, fun hnone => by rw [hnone] at hw; cases hw⟩) ?_ ?_
    · rintro rfl - - hnew
      obtain ⟨decl, hdecl⟩ := h.complete.product hd
      obtain ⟨-, k', params', hd', hvars⟩ := h.coherent.declares hd.declared
      obtain ⟨-, rfl, rfl⟩ := hd.unique hd'
      rw [hdecl]
      refine (gives_substituteEach hvars h.args_lt (h.coherent.fields_lt hdecl)).mono
        (fun _ hf => hf) ?_
      rintro parts st' ⟨⟨hle, hnom⟩, hread, hreplaced⟩
      have hadv := Advances.of_nominals hle hnom
      have hfields := h.coherent.fields_lt hdecl
      have hparts : ∀ c ∈ parts, c < st'.size := fun c hc => by
        obtain ⟨f, -, hlt, -⟩ := exists_mem_of_forall₂ hread hc
        exact hlt
      have hmap : parts.map st'.tree = decl.fields.map fun f =>
          (st'.tree f).subst (assign var (st'.idents params) (args.map st'.tree)) := by
        rw [idents_of_le hle hd.params_lt, map_tree_of_le hle h.args_lt]
        rw [map_eq_of_forall₂ (hread.imp fun f p hp => hp.2)]
        exact List.map_congr_left fun f hf => by rw [tree_of_le hle (hfields f hf)]
      refine (enters_variantWith_product (h.of_nominals hle hnom) (hadv.declares hd) hlen
        (by rw [hnom]; exact hnew) (hadv.productBody? hd.declared hdecl) hparts hmap hreplaced
        ?_).mono
        (fun _ hf => hf) ?_
      · intro sumName sum st₂ hfresh hsum hcard
        refine ih hfresh hsum hlen ?_
        have := hlater st' hadv
        simp only [leastDepth] at hdepth ⊢
        omega
      · intro v st₂ hv
        exact ⟨hadv.trans hv.advances, hv.fresh, hv.entered, fun _ decl' sum hdecl' hp =>
          hv.tied (by rw [hnom]; exact hnew) decl' sum (hadv.productBody? hd.declared hdecl') hp⟩
    · rintro rfl - - -
      obtain ⟨tags, htags⟩ := h.complete.sum hd
      rw [htags]
      have hloop := gives_mapM tags st (E := fun _ => False)
        (f := fun tag => instantiateWithin depth tag args) (I := fun st' => st'.FreshAt args)
        (P := fun tag part st' => st'.nominals.variants[(tag, args)]? = some part) h
        (fun _ _ _ _ hadv hv => hadv.variants hv) ?_
      · refine hloop.mono (fun _ hf => hf) fun parts st' hparts => ?_
        obtain ⟨hadv, hfresh, hparts⟩ := hparts
        refine (enters_variantWith_sum hfresh (hadv.declares hd) hlen
          (hadv.sumTags? hd.declared htags) hparts).mono (fun _ hf => hf) fun v st₂ hv => ?_
        refine ⟨hadv.trans hv.advances, hv.fresh, hv.entered, fun _ decl _ hdecl => ?_⟩
        rw [productBody?_eq_some, sumTags?_eq_some.mp htags] at hdecl
        cases hdecl
      · intro tag hmem st' hadv hfresh
        obtain ⟨tagName, decl, htag, -⟩ := h.coherent.tags hd htags hmem
        refine (ih hfresh (hadv.declares htag) hlen ?_).mono (fun _ hf => hf) fun part st₂ hp =>
          ⟨hp.advances, hp.fresh, hp.entered⟩
        have := hlater st' hadv
        simp only [leastDepth] at hdepth ⊢
        omega

/-! ## Products at fresh variables -/

/-- A product of the store, given as its number and its body, is a declared product at types. -/
structure IsProductAt (st : Store) (name : Name) (d : TypeId) (params args : List TypeId)
    (decl : ProductBody) (v : TypeId) (body : ProductBody) : Prop where
  length_args : args.length = params.length
  args_lt : ∀ a ∈ args, a < st.size
  isInstance : st.IsInstance name .product args v
  declBody : st.productBody? d = some decl
  productBody : st.productBody? v = some body
  isBodyAt : st.IsBodyAt decl params args body
  tied : ∀ sum, decl.parent = some sum → ∃ s, body.parent = some s

/-- A declaration without parameters is its own instance. -/
theorem isProductAt_nil {decl : ProductBody} (hco : st.Coherent)
    (hd : st.Declares name d .product []) (hdecl : st.productBody? d = some decl) :
    IsProductAt st name d [] [] decl d decl where
  length_args := rfl
  args_lt := hd.params_lt
  isInstance := hd.isInstance hco
  declBody := hdecl
  productBody := hdecl
  isBodyAt := by
    refine ⟨rfl, List.map_congr_left fun f _ => (subst_var_eq_self _).symm,
      List.forall₂_same.mpr fun f hf => replaced_nil (hco.fields_lt hdecl f hf), fun s hs => ?_⟩
    obtain ⟨sumName, hsum⟩ := hco.parent hd hdecl hs
    exact ⟨s, sumName, hs, hsum, hsum.isInstance hco⟩
  tied sum hsum := ⟨sum, hsum⟩

/-- As many fresh variables as a list has elements, in a computation that can be refused. -/
theorem gives_freshVars {ε α : Type} {E : Store → Prop} (xs : List α) (st : Store) :
    Gives (xs.mapM fun _ => (liftM StoreM.freshVar : ExceptT ε StoreM TypeId)) st E
      fun vs st' => (st ≤ st' ∧ st'.nominals = st.nominals) ∧ NewVars st st' vs ∧
        vs.length = xs.length := by
  induction xs generalizing st with
  | nil => exact gives_pure ⟨⟨le_rfl, rfl⟩, ⟨by simp, by simp, List.nodup_nil⟩, rfl⟩
  | cons x xs ih =>
    obtain ⟨hle, hnom, -⟩ := freshVar_new st
    rw [List.mapM_cons]
    refine Gives.bind (Q := fun v st' => st' = (StoreM.freshVar st).2 ∧ v = (StoreM.freshVar st).1)
      (gives_lift ⟨rfl, rfl⟩) ?_
    rintro v st₁ ⟨rfl, rfl⟩
    refine (ih _).bind fun vs st₂ hvs => gives_pure ?_
    obtain ⟨⟨hle', hnom'⟩, hnew, hlen⟩ := hvs
    exact ⟨⟨le_trans hle hle', hnom'.trans hnom⟩,
      (newVars_freshVar st).cons hle hle' hnew, congrArg (· + 1) hlen⟩

/-- Variables that are new to a store leave it with nothing made at them. -/
theorem freshAt_of_new {st' : Store} (hco : st.Coherent) (hcomp : st.Complete) (hle : st ≤ st')
    (hnom : st'.nominals = st.nominals) (hne : args ≠ []) (hvars : ∀ a ∈ args, st'.isVar a = true)
    (hnew : ∀ a ∈ args, st.size ≤ a) : st'.FreshAt args := by
  obtain ⟨a, ha⟩ := List.exists_mem_of_ne_nil args hne
  have hadv := Advances.of_nominals hle hnom
  refine ⟨hco.of_nominals hle hnom, hadv.complete hco hcomp, hvars, ?_, ?_, ?_⟩
  · rintro name d k params hd rfl
    exact absurd ((hadv.declares_of hco hd).params_lt a ha) (Nat.not_lt.mpr (hnew a ha))
  · intro name d v params hd hv
    rw [hnom] at hv
    exact absurd ((hco.variants hv).2.1 a ha) (Nat.not_lt.mpr (hnew a ha))
  · intro name d v k params hd hv hshape
    rw [hnom]
    cases hb : st.nominals.bodies[v]? with
    | none => rfl
    | some b =>
      have hlt := (hco.bodies hb).1
      rw [shape_of_le hle hlt] at hshape
      have hmem : a ∈ st.children v := by
        show a ∈ (st.shape v).children
        rw [hshape, DeclKind.children_shape]
        exact ha
      exact absurd (lt_size_of_mem_children hlt hmem) (Nat.not_lt.mpr (hnew a ha))

/-- What a product at fresh variables comes to. -/
structure Freshened (name : Name) (d : TypeId) (params : List TypeId) (st : Store) (v : TypeId)
    (st' : Store) : Prop where
  advances : st.Advances st'
  coherent : st'.Coherent
  product : ∃ args decl body, NewVars st st' args ∧ IsProductAt st' name d params args decl v body

/-- The instance of a declared product at variables that are new is always made. -/
theorem gives_instantiate_newVars {st' : Store} (hco : st.Coherent) (hcomp : st.Complete)
    (hd : st.Declares name d .product params) (hle : st ≤ st') (hnom : st'.nominals = st.nominals)
    (hnew : NewVars st st' args) (hlen : params.length = args.length) :
    Gives (instantiate d args) st' (fun _ => False) fun v st₂ =>
      st'.Advances st₂ ∧ st₂.Coherent ∧ ∃ decl body, IsProductAt st₂ name d params args decl v body := by
  obtain ⟨decl, hdecl⟩ := hcomp.product hd
  have hadv := Advances.of_nominals hle hnom
  refine gives_get_bind ?_
  by_cases hp : params = []
  · subst hp
    obtain rfl := List.length_eq_zero_iff.mp hlen.symm
    have hco' := hco.of_nominals hle hnom
    refine gives_instantiateWithin_succ (hco'.declOf?_self (hadv.declares hd).declared)
      (hadv.declares hd) (absurd rfl) (fun _ => ?_)
      (fun h => absurd rfl h) (fun _ h => absurd rfl h) (fun h => by cases h)
    exact ⟨.refl st', hco', decl, decl,
      isProductAt_nil hco' (hadv.declares hd) (hadv.productBody? hd.declared hdecl)⟩
  have hne : args ≠ [] := by
    rintro rfl
    exact hp (List.length_eq_zero_iff.mp hlen)
  have hfresh := freshAt_of_new hco hcomp hle hnom hne (fun a => hnew.isVar) hnew.new
  have hdepth : 2 * (st'.pending args).card + leastDepth .product ≤ instantiationDepth st' := by
    have := hfresh.coherent.card_pending_le args
    simp only [leastDepth, instantiationDepth]
    omega
  refine (gives_instantiateWithin_fresh _ hfresh (hadv.declares hd) hlen hdepth).mono
    (fun _ hf => hf) fun v st₂ hv => ?_
  have hadv' := hadv.trans hv.advances
  have hd' := hadv'.declares hd
  have hdecl' := hadv'.productBody? hd.declared hdecl
  obtain ⟨decl₀, body, hdecl₀, hbody, hat⟩ := hv.fresh.made hd' hv.entered
  rw [hdecl'] at hdecl₀
  obtain rfl := Option.some.inj hdecl₀
  refine ⟨hv.advances, hv.fresh.coherent, decl, body, hlen.symm, hv.fresh.args_lt,
    hv.fresh.isInstance hd' hv.entered, hdecl', hbody, hat, fun sum hsum => ?_⟩
  have hunmade : st'.nominals.variants[(d, args)]? = none := by
    cases hw : st'.nominals.variants[(d, args)]? with
    | none => rfl
    | some w =>
      obtain ⟨a, ha⟩ := List.exists_mem_of_ne_nil args hne
      rw [hnom] at hw
      exact absurd ((hco.variants hw).2.1 a ha) (Nat.not_lt.mpr (hnew.new a ha))
  obtain ⟨body', s, hbody', hs⟩ :=
    hv.tied hunmade decl sum (hadv.productBody? hd.declared hdecl) hsum
  rw [hbody] at hbody'
  exact ⟨s, Option.some.inj hbody' ▸ hs⟩

/-- The instance of a declared product at fresh variables is always made. -/
theorem gives_instantiateAtFresh (hco : st.Coherent) (hcomp : st.Complete)
    (hd : st.Declares name d .product params) :
    Gives (instantiateAtFresh d) st (fun _ => False) (Freshened name d params st) := by
  have hself := hco.declOf?_self hd.declared
  refine gives_get_bind ?_
  simp only [hself, hd.nominalArgs]
  refine (gives_freshVars params st).bind fun args st' hargs => ?_
  obtain ⟨⟨hle, hnom⟩, hnew, hlen⟩ := hargs
  refine (gives_instantiate_newVars hco hcomp hd hle hnom hnew hlen.symm).mono (fun _ hf => hf)
    fun v st₂ hv => ?_
  obtain ⟨hadv, hco', decl, body, hproduct⟩ := hv
  exact ⟨(Advances.of_nominals hle hnom).trans hadv, hco', args, decl, body,
    hnew.of_le hadv.le, hproduct⟩

end DeclM

end ConstraintTyping
