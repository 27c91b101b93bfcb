import ConstraintTyping.Proofs.Types.Elaborated
import ConstraintTyping.Proofs.Types.Materialize

/-!
# One instance for every declaration and arguments

Making an instance goes from a tag to its sum and from a sum to its tags, whichever of them is asked
for first.  From a start in which all declarations have their bodies it always ends, and what it
leaves does not depend on the order of requests: every request for a declaration at given arguments
gets the same type, a product has the fields of its declaration with the parameters replaced, and a
sum and its tags at the same arguments refer to each other.

`Operation.Permitted` are the operations that build types or ask for instances.  One of them keeps
what `Store.Elaborated` says of a store, hence so does every run of them.
-/

namespace ConstraintTyping

open Store StoreM DeclM

variable {base st st' : Store} {name : Name} {d v ty : TypeId} {k : DeclKind}
  {params args parts : List TypeId} {decl : ProductBody}

/-! ## The recursion -/

/-- What making an instance comes to. -/
structure Store.Makes (base : Store) (args : List TypeId) (d : TypeId) (st : Store) (v : TypeId)
    (st' : Store) : Prop where
  elaborated : Elaborated base st'
  proceeds : Proceeds base st st'
  entered : st'.nominals.variants[(d, args)]? = some v

namespace DeclM

section Finish

variable {inst : TypeId → List TypeId → DeclM TypeId} (hb : base.Blueprint)
  (h : Elaborated base st) (hplain : st.Unqualified args) (hne : params ≠ args)
  (hlen : params.length = args.length)
include hb h hplain hne hlen

/-- Finishing a product from its replaced fields, given that its sum can be made once the product is
entered. -/
theorem makes_variantWith_product (hd : base.Declares name d .product params)
    (hnew : st.nominals.variants[(d, args)]? = none) (hdecl : base.productBody? d = some decl)
    (hparts : List.Forall₂ (st.Replaces (params.zip args)) decl.fields parts)
    (hinst : ∀ sumName sum st', Elaborated base st' → st ≤ st' →
      base.Declares sumName sum .sum params →
      (st'.pending args).card < (st.pending args).card →
        Gives (inst sum args) st' (fun _ => False) (Makes base args sum st')) :
    Gives (variantWith inst d parts args) st (fun _ => False) (Makes base args d st) := by
  have hdecl' : st.productBody? d = some decl := (h.productBody? hd.declared).trans hdecl
  have hat : BodyAt base st d params args .product (.product (productOver st d parts)) := by
    refine .product hdecl ⟨?_, hparts, fun s hs => nomatch hs⟩
    rw [productOver, hdecl']
    rfl
  refine gives_variantWith_product ((h.coherent hb).declOf?_self (h.declares hd).declared)
    (h.declares hd) (absurd hlen)
    (fun heq => absurd heq hne) (fun w hw => by rw [hnew] at hw; cases hw) fun _ _ _ => ?_
  have hent := entering_enterWith d .product name (.product (productOver st d parts)) hplain
  generalize enterWith d args (DeclKind.product.shape name args) _ st = v at hent ⊢
  obtain ⟨hkeeps, hbody, hloose⟩ := h.entering hb hd hne hlen hnew hat hent
  rw [hdecl', Option.bind_some]
  refine ⟨fun hnone => ⟨hkeeps, ⟨hent.le, hent.variants_of hnew, fun hl => ?_⟩, hent.entered⟩,
    fun sum hsum => ?_⟩
  · refine (hloose _ hl).resolve_left fun heq => ?_
    obtain ⟨decl', sum, _, _, hdecl', hsum, -⟩ := hl
    rw [heq, hdecl] at hdecl'
    rw [← Option.some.inj hdecl', hnone] at hsum
    cases hsum
  · obtain ⟨sumName, hsumDecl⟩ := hb.coherent.parent hd hdecl hsum
    have hcard := card_pending_lt hent.declared (hent.variants_of hnew)
      (h.declares hd).declared hnew hent.entered
    refine (hinst sumName sum v.2 hkeeps hent.le hsumDecl hcard).mono (fun _ hf => hf) ?_
    intro s st' hs
    obtain ⟨hkeeps', hproceeds, htied⟩ := hs.elaborated.bindParent hb hd
      (hs.proceeds.variants hent.entered) hdecl hsum hs.entered
    refine ⟨hkeeps', ⟨le_trans hent.le (hs.proceeds.trans hproceeds).le, fun hw => ?_, fun hl => ?_⟩,
      hproceeds.variants (hs.proceeds.variants hent.entered)⟩
    · exact hproceeds.variants (hs.proceeds.variants (hent.variants_of hnew hw))
    · exact (hloose _ (hs.proceeds.loose (hproceeds.loose hl))).resolve_left fun heq =>
        htied (heq ▸ hl)

/-- Finishing a sum from its made tags. -/
theorem makes_variantWith_sum {tags : List TypeId} (hd : base.Declares name d .sum params)
    (htags : base.sumTags? d = some tags)
    (hparts : List.Forall₂ (fun tag part => st.nominals.variants[(tag, args)]? = some part)
      tags parts) :
    Gives (variantWith inst d parts args) st (fun _ => False) (Makes base args d st) := by
  refine gives_variantWith_sum ((h.coherent hb).declOf?_self (h.declares hd).declared)
    (h.declares hd) (absurd hlen)
    (fun heq => absurd heq hne) (fun w hw => ⟨h, .refl base st, hw⟩) fun hnew _ _ => ?_
  have hent := entering_enterWith d .sum name (.sum parts) hplain
  generalize enterWith d args (DeclKind.sum.shape name args) _ st = v at hent ⊢
  obtain ⟨hkeeps, -, hloose⟩ := h.entering hb hd hne hlen hnew (.sum htags hparts) hent
  have hproceeds : Proceeds base st v.2 := by
    refine ⟨hent.le, hent.variants_of hnew, fun hl => (hloose _ hl).resolve_left fun heq => ?_⟩
    obtain ⟨decl, _, _, _, hdecl, -⟩ := hl
    rw [heq, productBody?_eq_some, sumTags?_eq_some.mp htags] at hdecl
    cases hdecl
  -- one tag after the other is tied to the new instance
  suffices hfold : ∀ (rest : List TypeId) (st' : Store), (∀ part ∈ rest, part ∈ parts) →
      Makes base args d st v.1 st' →
        Makes base args d st v.1 (rest.foldl (fun st tag => st.bindParent tag v.1) st') from
    hfold parts v.2 (fun _ hp => hp) ⟨hkeeps, hproceeds, hent.entered⟩
  intro rest
  induction rest with
  | nil => exact fun st' _ hmakes => hmakes
  | cons part rest ih =>
    intro st' hsub hmakes
    obtain ⟨tag, htag, hpart⟩ := exists_mem_of_forall₂ hparts (hsub part List.mem_cons_self)
    obtain ⟨tagName, decl, htagDecl, hdecl, hparent⟩ := hb.coherent.tags hd htags htag
    obtain ⟨hkeeps', hproceeds', -⟩ := hmakes.elaborated.bindParent hb htagDecl
      (hmakes.proceeds.variants hpart) hdecl hparent hmakes.entered
    exact ih _ (fun q hq => hsub q (List.mem_cons_of_mem part hq))
      ⟨hkeeps', hmakes.proceeds.trans hproceeds', hproceeds'.variants hmakes.entered⟩

end Finish

/-- Replacing parameters in the fields of a declaration. -/
theorem gives_replaceFields {fields : List TypeId} (hargs : ∀ a ∈ args, a < st.size)
    (hfields : ∀ f ∈ fields, f < st.size) :
    Gives (fields.mapM fun field => (liftM (substituteAll (params.zip args) field) : DeclM TypeId))
      st (fun _ => False) fun parts st' => (st ≤ st' ∧ st'.nominals = st.nominals) ∧
        List.Forall₂ (st'.Replaces (params.zip args)) fields parts := by
  have hzip : ∀ p ∈ params.zip args, p.2 < st.size := fun p hp =>
    hargs p.2 (List.of_mem_zip hp).2
  refine (gives_mapM_along (R := (· ≤ ·)) (fun _ => le_rfl) le_trans fields st
    (I := fun st' => st ≤ st' ∧ st'.nominals = st.nominals)
    (P := fun field part st' => st'.Replaces (params.zip args) field part) ⟨le_rfl, rfl⟩
    (fun _ _ _ _ hle hr => hr.of_le hle) fun field hfield st₁ hle ⟨_, hnom⟩ => ?_).mono
    (fun _ hf => hf) fun parts st₁ hloop => hloop.2
  have hfield := lt_size_of_le hle (hfields field hfield)
  have hzip : ∀ p ∈ params.zip args, p.2 < st₁.size := fun p hp => lt_size_of_le hle (hzip p hp)
  have hyields := yields_substituteAll hzip hfield
  have hle' := hyields.steps.le
  refine gives_lift ⟨hle', ⟨le_trans hle hle', (builds_substituteAll _ _ st₁).2.trans hnom⟩,
    fun p hp => lt_size_of_le hle' (hzip p hp), lt_size_of_le hle' hfield, hyields.result.1, ?_⟩
  exact repeats_substituteAll hzip hfield _ le_rfl

/-- Every declaration can be made at arguments other than its parameters, given a depth of two for
each declaration that is pending at them. -/
theorem makes_instantiateWithin (depth : Nat) (hb : base.Blueprint) (h : Elaborated base st)
    (hplain : st.Unqualified args) (hne : params ≠ args) (hlen : params.length = args.length)
    (hd : base.Declares name d k params)
    (hdepth : 2 * (st.pending args).card + leastDepth k ≤ depth) :
    Gives (instantiateWithin depth d args) st (fun _ => False) (Makes base args d st) := by
  induction depth generalizing st name d k with
  | zero => cases k <;> simp [leastDepth] at hdepth
  | succ depth ih =>
    have hlater : ∀ st', Elaborated base st' → Proceeds base st st' →
        (st'.pending args).card ≤ (st.pending args).card := fun st' h' hproceeds =>
      Finset.card_le_card (pending_subset (h'.declared.trans h.declared.symm) hproceeds.variants)
    refine gives_instantiateWithin_succ ((h.coherent hb).declOf?_self (h.declares hd).declared)
      (h.declares hd) (absurd hlen)
      (fun heq => absurd heq hne) (fun _ w hw => ⟨h, .refl base st, hw⟩) ?_ ?_
    · rintro rfl - - hnew
      obtain ⟨decl, hdecl⟩ := hb.product hd
      rw [h.productBody? hd.declared, hdecl]
      refine (gives_replaceFields (fun a ha => (hplain a ha).1) fun f hf =>
        lt_size_of_le h.le (hb.coherent.fields_lt hdecl f hf)).mono (fun _ hf => hf) ?_
      rintro parts st₁ ⟨⟨hle, hnom⟩, hparts⟩
      have h₁ := h.of_nominals hle hnom
      have hproceeds : Proceeds base st st₁ := proceeds_of_nominals hle hnom
      refine (makes_variantWith_product hb h₁ (hplain.of_le hle) hne hlen hd
        (by rw [hnom]; exact hnew) hdecl hparts ?_).mono (fun _ hf => hf) fun v st₂ hmakes =>
          ⟨hmakes.elaborated, hproceeds.trans hmakes.proceeds, hmakes.entered⟩
      intro sumName sum st₂ h₂ hle₂ hsum hcard
      refine ih h₂ (hplain.of_le (le_trans hle hle₂)) hsum ?_
      have := hlater st₁ h₁ hproceeds
      simp only [leastDepth] at hdepth ⊢
      omega
    · rintro rfl - - -
      obtain ⟨tags, htags⟩ := hb.sum hd
      rw [h.sumTags? hd.declared, htags]
      have hloop := gives_mapM_along (R := Proceeds base) (.refl base) .trans tags st
        (E := fun _ => False) (f := fun tag => instantiateWithin depth tag args)
        (I := Elaborated base)
        (P := fun tag part st' => st'.nominals.variants[(tag, args)]? = some part) h
        (fun _ _ _ _ hproceeds hv => hproceeds.variants hv) ?_
      · refine hloop.mono (fun _ hf => hf) fun parts st₁ hdone => ?_
        obtain ⟨hproceeds, h₁, hparts⟩ := hdone
        exact (makes_variantWith_sum hb h₁ (hplain.of_le hproceeds.le) hne hlen hd htags hparts).mono
          (fun _ hf => hf) fun v st₂ hmakes =>
            ⟨hmakes.elaborated, hproceeds.trans hmakes.proceeds, hmakes.entered⟩
      · intro tag hmem st₁ hproceeds h₁
        obtain ⟨tagName, decl, htag, -⟩ := hb.coherent.tags hd htags hmem
        refine (ih h₁ (hplain.of_le hproceeds.le) htag ?_).mono (fun _ hf => hf)
          fun part st₂ hmakes => ⟨hmakes.proceeds, hmakes.elaborated, hmakes.entered⟩
        have := hlater st₁ h₁ hproceeds
        simp only [leastDepth] at hdepth ⊢
        omega

end DeclM

/-! ## Requests -/

namespace Store

/-- The instance of a declaration at arguments, if it was made.  At its own parameters it is the
declaration. -/
def instance? (st : Store) (d : TypeId) (args : List TypeId) : Option TypeId :=
  if st.nominalArgs d = args then some d else st.nominals.variants[(d, args)]?

theorem Declares.instance?_self (hd : st.Declares name d k params) :
    st.instance? d params = some d := by
  rw [instance?, hd.nominalArgs, if_pos rfl]

theorem Declares.instance?_eq (hd : st.Declares name d k params) (hne : params ≠ args) :
    st.instance? d args = st.nominals.variants[(d, args)]? := by
  rw [instance?, hd.nominalArgs, if_neg hne]

/-- A product or sum of a declared name, at as many arguments as there are parameters: the
declaration itself, one of its instances, or what becomes of these when variables are replaced. -/
structure Applied (st : Store) (d : TypeId) (name : Name) (k : DeclKind) (params args : List TypeId)
    (ty : TypeId) : Prop where
  declares : st.Declares name d k params
  shape : st.shape ty = k.shape name args
  length_args : args.length = params.length

theorem Applied.lt_size (h : st.Applied d name k params args ty) : ty < st.size :=
  lt_size_of_shape_ne (by rw [h.shape]; cases k <;> simp [DeclKind.shape])

theorem Applied.nominalArgs (h : st.Applied d name k params args ty) : st.nominalArgs ty = args := by
  rw [Store.nominalArgs, h.shape, DeclKind.nominalArgs_shape]

/-- Replacing variables in a product or sum leaves a product or sum of that name. -/
theorem yields_mapVars_declared {f : TypeId → TypeId} (hf : ∀ v, v < st.size → f v < st.size)
    (hty : st.shape ty = k.shape name args) :
    (mapVars f ty).Yields st fun r st' =>
      ∃ args', st'.shape r = k.shape name args' ∧ args'.length = args.length := by
  have hlt : ty < st.size := lt_size_of_shape_ne (by rw [hty]; cases k <;> simp [DeclKind.shape])
  have hchildren : st.children ty = args := by
    show (st.shape ty).children = args
    rw [hty, DeclKind.children_shape]
  rw [mapVars_eq]
  refine yields_get_bind ?_
  split
  · rw [if_neg (by rw [isVar, hty, DeclKind.isVar_shape]; decide)]
    refine (yields_mapChildren hf le_rfl hlt).bind fun mapped st₁ hs hchanged => ?_
    obtain ⟨hlen, hmapped⟩ := hchanged
    rw [hchildren] at hlen ⊢
    have hty₁ := (shape_of_le hs.le hlt).trans hty
    split
    · exact yields_pure ⟨args, hty₁, rfl⟩
    · refine yields_get_bind ?_
      have hnew : (k.shape name args).withChildren? mapped = some (k.shape name mapped) := by
        cases k <;> rfl
      have hbuilt : (intern (k.shape name mapped)).Yields st₁ fun r st' =>
          ∃ args', st'.shape r = k.shape name args' ∧ args'.length = args.length := by
        refine (yields_intern (k.isQualified_shape name mapped) ?_).mono fun r st' _ hr =>
          ⟨mapped.map st₁.bare, ?_, (List.length_map _).trans hlen⟩
        · rw [DeclKind.children_shape]
          exact hmapped
        · rw [hr.2, DeclKind.map_shape]
      rw [hty₁, hnew]
      cases k <;> exact hbuilt
  · exact yields_pure ⟨args, hty, rfl⟩

theorem Applied.substituteAll {mapping : List (TypeId × TypeId)}
    (hty : st.Applied d name k params args ty) (hmapping : ∀ p ∈ mapping, p.2 < st.size) :
    ∃ args', Applied (StoreM.substituteAll mapping ty st).2 d name k params args'
      (StoreM.substituteAll mapping ty st).1 := by
  have hbuilds := builds_substituteAll mapping ty st
  have hyields : (StoreM.substituteAll mapping ty).Yields st fun r st' =>
      ∃ args', st'.shape r = k.shape name args' ∧ args'.length = args.length := by
    unfold StoreM.substituteAll
    split
    · exact yields_pure ⟨args, hty.shape, rfl⟩
    · exact yields_mapVars_declared (fun v => lookup_lt hmapping) hty.shape
  obtain ⟨args', hshape, hlen⟩ := hyields.result
  exact ⟨args', declares_of_nominals hbuilds.1 hbuilds.2 hty.declares, hshape,
    hlen.trans hty.length_args⟩

/-- What a request for an instance comes to. -/
structure Answers (base : Store) (d : TypeId) (args : List TypeId) (st : Store) (v : TypeId)
    (st' : Store) : Prop where
  elaborated : Elaborated base st'
  proceeds : Proceeds base st st'
  instance? : st'.instance? d args = some v

section Requests

variable (hb : base.Blueprint) (h : Elaborated base st)
include h

/-- The declaration behind a type is that of its name. -/
theorem Elaborated.declOf? (hty : st.Applied d name k params args ty) : st.declOf? ty = some d := by
  have hd := hty.declares
  unfold Store.declOf?
  split
  · next d' hd' =>
    have hname := (h.origin hd').2 k name args hty.shape
    rw [← h.declared?, hd.declared] at hname
    exact hname.symm
  · have hkind : st.kind d = st.kind ty := by
      rw [hd.kind, Store.kind, hty.shape, DeclKind.kind_shape]
    rw [hty.shape]
    cases k <;> simp [DeclKind.shape, hd.declared, hkind]

/-- An instance has the shape of its declaration at the arguments. -/
theorem Elaborated.shape_instance? (hd : st.Declares name d k params)
    (hv : st.instance? d args = some v) : v < st.size ∧ st.shape v = k.shape name args := by
  by_cases heq : params = args
  · subst heq
    rw [hd.instance?_self] at hv
    obtain rfl := Option.some.inj hv
    exact ⟨hd.lt_size, hd.shape⟩
  · rw [hd.instance?_eq heq] at hv
    obtain ⟨name', k', params', hd', hlt, hshape, -⟩ := h.variants hv
    obtain ⟨rfl, rfl, -⟩ := (h.declares hd').unique_of_id hd
    exact ⟨hlt, hshape⟩

include hb

/-- An instance stays the instance. -/
theorem Elaborated.instance?_of_proceeds (h' : Elaborated base st') (hproceeds : Proceeds base st st')
    (hd : st.Declares name d k params) (hv : st.instance? d args = some v) :
    st'.instance? d args = some v := by
  have hd' := h'.declares (h.declares_of hb hd)
  by_cases heq : params = args
  · subst heq
    rw [hd.instance?_self] at hv
    rw [hd'.instance?_self, hv]
  · rw [hd.instance?_eq heq] at hv
    rw [hd'.instance?_eq heq]
    exact hproceeds.variants hv

/-- A request for a declaration at arguments. -/
theorem answers_instantiate (hty : st.Applied d name k params parts ty) (hplain : st.Unqualified args)
    (hlen : args.length = params.length) :
    Gives (instantiate ty args) st (fun _ => False) (Answers base d args st) := by
  have hd := hty.declares
  have hself : st.declOf? d = some d := by
    rw [Store.declOf?, h.self ((h.declared? name).symm.trans hd.declared)]
  refine gives_get_bind ?_
  unfold Gives
  rw [instantiationDepth, instantiateWithin_declOf? _ hself (h.declOf? hty)]
  by_cases heq : params = args
  · subst heq
    refine gives_instantiateWithin_succ ((h.coherent hb).declOf?_self hd.declared) hd (absurd rfl)
      (fun _ => ⟨h, .refl base st, hd.instance?_self⟩) (absurd rfl) (fun _ => absurd rfl)
      (fun _ => absurd rfl)
  · have hdepth : 2 * (st.pending args).card + leastDepth k ≤ 2 * st.nominals.declOf.size + 4 := by
      have := (h.coherent hb).card_pending_le args
      cases k <;> simp only [leastDepth] <;> omega
    refine (makes_instantiateWithin _ hb h hplain heq hlen.symm (h.declares_of hb hd) hdepth).mono
      (fun _ hf => hf) fun v st' hmakes => ⟨hmakes.elaborated, hmakes.proceeds, ?_⟩
    rw [(hmakes.elaborated.declares (h.declares_of hb hd)).instance?_eq heq]
    exact hmakes.entered

/-- A request for a declaration at fresh variables. -/
theorem answers_instantiateAtFresh (hty : st.Applied d name k params parts ty) :
    Gives (instantiateAtFresh ty) st (fun _ => False) fun v st' => ∃ vars, NewVars st st' vars ∧
      vars.length = params.length ∧ Answers base d vars st v st' := by
  have hd := hty.declares
  refine gives_get_bind ?_
  simp only [h.declOf? hty, hd.nominalArgs]
  refine (gives_freshVars params st).bind fun vars st₁ hvars => ?_
  obtain ⟨⟨hle, hnom⟩, hnew, hlen⟩ := hvars
  have h₁ := h.of_nominals hle hnom
  have hd₁ := h₁.declares (h.declares_of hb hd)
  have hplain : st₁.Unqualified vars := fun a ha => by
    obtain ⟨x, hx⟩ := hnew.fresh a ha
    exact ⟨hnew.lt_size ha, bare_of_not_qualified (by rw [hx]; rfl)⟩
  have hself : st₁.Applied d name k params params d := ⟨hd₁, hd₁.shape, rfl⟩
  refine (answers_instantiate hb h₁ hself hplain hlen).mono (fun _ hf => hf) fun v st₂ hv => ?_
  exact ⟨vars, hnew.of_le hv.proceeds.le, hlen, hv.elaborated,
    (proceeds_of_nominals hle hnom).trans hv.proceeds, hv.instance?⟩

/-- A product or sum that has a body is an instance. -/
theorem Elaborated.instance?_of_body {b : Body} (hty : st.Applied d name k params args ty)
    (hbody : st.nominals.bodies[ty]? = some b) : st.instance? d args = some ty := by
  rcases h.owner hbody with ⟨name', hname'⟩ | ⟨⟨d', args'⟩, hv⟩
  · obtain ⟨-, k', params', hd', -⟩ := hb.coherent.declares hname'
    have hd' := h.declares hd'
    obtain ⟨rfl, rfl, rfl⟩ := DeclKind.shape_inj (hty.shape.symm.trans hd'.shape)
    rw [(hty.declares.unique hd').1]
    exact hd'.instance?_self
  · obtain ⟨name', k', params', hd', -, hshape, hne, -⟩ := h.variants hv
    have hd' := h.declares hd'
    obtain ⟨rfl, rfl, rfl⟩ := DeclKind.shape_inj (hty.shape.symm.trans hshape)
    rw [(hty.declares.unique hd').1, hd'.instance?_eq hne]
    exact hv

/-- A request for the body of a type. -/
theorem answers_materialize (hty : st.Applied d name k params args ty) :
    Gives (materialize ty) st (fun _ => False) fun v st' =>
      v = ty ∧ Answers base d args st ty st' := by
  refine gives_get_bind ?_
  split
  · next hcontains =>
    rw [Std.HashMap.contains_eq_isSome_getElem?] at hcontains
    obtain ⟨b, hbody⟩ := Option.isSome_iff_exists.mp hcontains
    exact gives_pure ⟨rfl, h, .refl base st, h.instance?_of_body hb hty hbody⟩
  · rw [hty.nominalArgs]
    refine (answers_instantiate hb h hty (unqualified_of_shape hty.shape) hty.length_args).mono
      (fun _ hf => hf) fun v st' hv => ?_
    have hd' := hv.elaborated.declares (h.declares_of hb hty.declares)
    obtain ⟨hlt, hshape⟩ := hv.elaborated.shape_instance? hd' hv.instance?
    have hty' : st'.shape ty = k.shape name args :=
      (shape_of_le hv.proceeds.le hty.lt_size).trans hty.shape
    obtain rfl := eq_of_shape_eq hlt (lt_size_of_le hv.proceeds.le hty.lt_size)
      (hshape.trans hty'.symm)
    exact ⟨rfl, hv⟩

end Requests

/-- Replacing parameters by themselves changes nothing. -/
theorem replaces_self (hvars : ∀ p ∈ params, p < st.size) (hty : ty < st.size) :
    st.Replaces (params.zip params) ty ty where
  mapping_lt p hp := hvars p.2 (List.of_mem_zip hp).2
  field_lt := hty
  part_lt := hty
  run_eq := by
    unfold substituteAll
    split
    · rfl
    · refine mapVars_eq_self st ty fun v _ _ _ => ?_
      cases hl : (params.zip params).lookup v with
      | none => rfl
      | some a =>
        obtain ⟨l₁, l₂, hl, -⟩ := List.lookup_eq_some_iff.mp hl
        have hmem : (v, a) ∈ params.zip params := by rw [hl]; simp
        rw [List.zip_eq_zipWith, List.zipWith_self] at hmem
        obtain ⟨p, -, hp⟩ := List.mem_map.mp hmem
        obtain ⟨rfl, rfl⟩ := Prod.mk.inj hp
        rfl

end Store

/-! ## Runs -/

namespace Operation

/-- An operation that builds a type, or that asks for an instance of a declaration at as many
arguments without qualifiers as it has parameters. -/
inductive Permitted (st : Store) : Operation → Prop
  | build {op : Operation} (h : op.Builds) : Permitted st op
  | instantiate {d ty : TypeId} {name : Name} {k : DeclKind} {params own args : List TypeId}
      (hty : st.Applied d name k params own ty) (hplain : st.Unqualified args)
      (hlen : args.length = params.length) : Permitted st (.instantiate ty args)
  | instantiateAtFresh {d ty : TypeId} {name : Name} {k : DeclKind} {params own : List TypeId}
      (hty : st.Applied d name k params own ty) : Permitted st (.instantiateAtFresh ty)
  | materialize {d ty : TypeId} {name : Name} {k : DeclKind} {params own : List TypeId}
      (hty : st.Applied d name k params own ty) : Permitted st (.materialize ty)

/-- The request for an instance that an operation makes. -/
def request? : Operation → Option (DeclM TypeId)
  | instantiate ty args => some (DeclM.instantiate ty args)
  | instantiateAtFresh ty => some (DeclM.instantiateAtFresh ty)
  | materialize ty => some (DeclM.materialize ty)
  | _ => none

theorem run_of_request? {op : Operation} {act : DeclM TypeId} (h : op.request? = some act) :
    op.run st = (act.run st).2 := by
  cases op <;> cases h <;> rfl

/-- The answer `v` to a request made in `st` is what a later store has as the instance of the
declaration at the arguments. -/
def Answered (st later : Store) (v : TypeId) : Operation → Prop
  | instantiate ty args => ∃ d, st.declOf? ty = some d ∧ later.instance? d args = some v
  | instantiateAtFresh ty => ∃ d vars, st.declOf? ty = some d ∧ NewVars st later vars ∧
      vars.length = (st.nominalArgs d).length ∧ later.instance? d vars = some v
  | materialize ty => v = ty ∧ ∃ d, st.declOf? ty = some d ∧
      later.instance? d (st.nominalArgs ty) = some v
  | _ => True

section Runs

variable {op : Operation} {ops : List Operation} (hb : base.Blueprint) (h : Elaborated base st)
include hb h

/-- A request is answered, and later stores agree with the answer. -/
theorem Permitted.answered {act : DeclM TypeId} (hop : op.Permitted st)
    (hact : op.request? = some act) :
    Gives act st (fun _ => False) fun v st' => Elaborated base st' ∧ Proceeds base st st' ∧
      ∀ later, Elaborated base later → Proceeds base st' later → op.Answered st later v := by
  cases hop with
  | @instantiate d ty name k params own args hty hplain hlen =>
    obtain rfl := Option.some.inj hact
    refine (answers_instantiate hb h hty hplain hlen).mono (fun _ hf => hf) fun v st' hv =>
      ⟨hv.elaborated, hv.proceeds, fun later hlater hproceeds => ⟨d, h.declOf? hty, ?_⟩⟩
    exact hv.elaborated.instance?_of_proceeds hb hlater hproceeds
      (hv.elaborated.declares (h.declares_of hb hty.declares)) hv.instance?
  | @instantiateAtFresh d ty name k params own hty =>
    obtain rfl := Option.some.inj hact
    refine (answers_instantiateAtFresh hb h hty).mono (fun _ hf => hf) ?_
    rintro v st' ⟨vars, hnew, hlen, hv⟩
    refine ⟨hv.elaborated, hv.proceeds, fun later hlater hproceeds =>
      ⟨d, vars, h.declOf? hty, hnew.of_le hproceeds.le, ?_, ?_⟩⟩
    · rw [hty.declares.nominalArgs]
      exact hlen
    · exact hv.elaborated.instance?_of_proceeds hb hlater hproceeds
        (hv.elaborated.declares (h.declares_of hb hty.declares)) hv.instance?
  | @materialize d ty name k params own hty =>
    obtain rfl := Option.some.inj hact
    refine (answers_materialize hb h hty).mono (fun _ hf => hf) ?_
    rintro v st' ⟨rfl, hv⟩
    refine ⟨hv.elaborated, hv.proceeds, fun later hlater hproceeds =>
      ⟨rfl, d, h.declOf? hty, ?_⟩⟩
    rw [hty.nominalArgs]
    exact hv.elaborated.instance?_of_proceeds hb hlater hproceeds
      (hv.elaborated.declares (h.declares_of hb hty.declares)) hv.instance?
  | build hbuilds => cases hbuilds <;> cases hact

/-- An operation that is permitted keeps what is known of a store. -/
theorem Permitted.run (hop : op.Permitted st) :
    Elaborated base (op.run st) ∧ Proceeds base st (op.run st) := by
  have hrequest : ∀ {act : DeclM TypeId}, op.request? = some act →
      Elaborated base (op.run st) ∧ Proceeds base st (op.run st) := fun hact => by
    obtain ⟨v, st', hrun, hkeeps, hproceeds, -⟩ := (hop.answered hb h hact).exists_ok fun _ hf => hf
    rw [run_of_request? hact, hrun]
    exact ⟨hkeeps, hproceeds⟩
  cases hop with
  | build hbuilds =>
    obtain ⟨hle, hnom⟩ := hbuilds.run st
    exact ⟨h.of_nominals hle hnom, proceeds_of_nominals hle hnom⟩
  | instantiate _ _ _ => exact hrequest rfl
  | instantiateAtFresh _ => exact hrequest rfl
  | materialize _ => exact hrequest rfl

/-- So does a run of them. -/
theorem Permitted.runAll (hops : Along Permitted ops st) :
    Elaborated base (runAll ops st) ∧ Proceeds base st (runAll ops st) := by
  induction ops generalizing st with
  | nil => exact ⟨h, .refl base st⟩
  | cons op ops ih =>
    obtain ⟨hkeeps, hproceeds⟩ := Permitted.run hb h hops.1
    obtain ⟨hkeeps', hproceeds'⟩ := ih hkeeps hops.2
    exact ⟨hkeeps', hproceeds.trans hproceeds'⟩

end Runs

theorem runAll_nil (st : Store) : runAll [] st = st := rfl

theorem runAll_append (before after : List Operation) (st : Store) :
    runAll (before ++ after) st = runAll after (runAll before st) :=
  List.foldl_append

theorem Along.append {P : Store → Operation → Prop} {before after : List Operation}
    (h : Along P (before ++ after) st) : Along P before st ∧ Along P after (runAll before st) := by
  induction before generalizing st with
  | nil => exact ⟨trivial, h⟩
  | cons op before ih =>
    obtain ⟨hbefore, hafter⟩ := ih h.2
    exact ⟨⟨h.1, hbefore⟩, hafter⟩

end Operation

namespace Store

/-- The body of a product at arguments, with its parent: all tags are tied. -/
theorem Elaborated.product_instance? (hb : base.Blueprint) (h : Elaborated base st)
    (hloose : ∀ key, ¬ Loose base st key) (hd : base.Declares name d .product params)
    (hv : st.instance? d args = some v) :
    ∃ decl body, base.productBody? d = some decl ∧ st.productBody? v = some body ∧
      body.fieldNames = decl.fieldNames ∧
      List.Forall₂ (st.Replaces (params.zip args)) decl.fields body.fields ∧
      body.parent.isSome = decl.parent.isSome ∧
      ∀ s ∈ body.parent, ∃ sum ∈ decl.parent, st.instance? sum args = some s := by
  by_cases heq : params = args
  · subst heq
    rw [(h.declares hd).instance?_self] at hv
    obtain rfl := Option.some.inj hv
    obtain ⟨decl, hdecl⟩ := hb.product hd
    refine ⟨decl, decl, hdecl, (h.productBody? hd.declared).trans hdecl, rfl, ?_, rfl,
      fun s hs => ⟨s, hs, ?_⟩⟩
    · refine List.forall₂_same.mpr fun f hf => replaces_self (fun p hp => ?_) ?_
      · exact lt_size_of_le h.le (hd.params_lt p hp)
      · exact lt_size_of_le h.le (hb.coherent.fields_lt hdecl f hf)
    · obtain ⟨sumName, hsum⟩ := hb.coherent.parent hd hdecl hs
      exact (h.declares hsum).instance?_self
  · rw [(h.declares hd).instance?_eq heq] at hv
    obtain ⟨b, hbody, hat⟩ := h.made hd hv
    cases hat with
    | @product decl body hdecl hat =>
      have hbody := productBody?_eq_some.mpr hbody
      refine ⟨decl, body, hdecl, hbody, hat.fieldNames, hat.fields, ?_, fun s hs => ?_⟩
      · cases hparent : body.parent with
        | some s =>
          obtain ⟨sum, hsum, -⟩ := hat.parent s hparent
          rw [hsum]
          rfl
        | none =>
          cases hsum : decl.parent with
          | none => rfl
          | some sum => exact absurd ⟨decl, sum, v, body, hdecl, hsum, hv, hbody, hparent⟩ (hloose _)
      · obtain ⟨sum, hsum, hs⟩ := hat.parent s hs
        obtain ⟨sumName, hsumDecl⟩ := hb.coherent.parent hd hdecl hsum
        refine ⟨sum, hsum, ?_⟩
        rw [(h.declares hsumDecl).instance?_eq heq]
        exact hs

/-- The tags of a sum at arguments. -/
theorem Elaborated.sum_instance? (hb : base.Blueprint) (h : Elaborated base st)
    (hd : base.Declares name d .sum params) (hv : st.instance? d args = some v) :
    ∃ tags ids, base.sumTags? d = some tags ∧ st.sumTags? v = some ids ∧
      List.Forall₂ (fun tag id => st.instance? tag args = some id) tags ids := by
  obtain ⟨tags, htags⟩ := hb.sum hd
  have htag : ∀ tag ∈ tags, ∃ tagName, st.Declares tagName tag .product params := fun tag hmem => by
    obtain ⟨tagName, -, htag, -⟩ := hb.coherent.tags hd htags hmem
    exact ⟨tagName, h.declares htag⟩
  by_cases heq : params = args
  · subst heq
    rw [(h.declares hd).instance?_self] at hv
    obtain rfl := Option.some.inj hv
    refine ⟨tags, tags, htags, (h.sumTags? hd.declared).trans htags,
      List.forall₂_same.mpr fun tag hmem => ?_⟩
    obtain ⟨tagName, htag⟩ := htag tag hmem
    exact htag.instance?_self
  · rw [(h.declares hd).instance?_eq heq] at hv
    obtain ⟨b, hbody, hat⟩ := h.made hd hv
    cases hat with
    | @sum tags' ids htags' hids =>
      obtain rfl := Option.some.inj (htags.symm.trans htags')
      refine ⟨tags, ids, htags, sumTags?_eq_some.mpr hbody,
        forall₂_of_mem hids fun tag hmem id hid => ?_⟩
      obtain ⟨tagName, htag⟩ := htag tag hmem
      rw [htag.instance?_eq heq]
      exact hid

end Store

namespace Operation

/-- Let types be declared and defined until every declared product has its fields and every declared
sum its tags, each a tag of that sum alone, and let nothing be instantiated before.  Then in every run
of operations that build types and ask for instances, each request is answered, with what is in the
end the instance of its declaration at its arguments; so equal requests have equal answers.  In the
end the instance at the parameters is the declaration itself.  A product at arguments has the names of
its declaration, and its fields with the parameters replaced; it has a parent exactly when the
declaration has one, and that is the sum at the same arguments.  A sum at arguments has its tags at
the same arguments, in the order of the declaration. -/
theorem runAll_monomorphic (drafts ops : List Operation) (hdrafts : Along Drafts drafts Store.new)
    (hbodied : (runAll drafts Store.new).Bodied)
    (hops : Along Permitted ops (runAll drafts Store.new)) :
    let base := runAll drafts Store.new
    let final := runAll ops base
    (∀ before op after act, ops = before ++ op :: after → op.request? = some act →
      ∃ v, (act.run (runAll before base)).1 = .ok v ∧ op.Answered (runAll before base) final v) ∧
    (∀ name d k params, base.Declares name d k params → final.instance? d params = some d) ∧
    (∀ name d params args v, base.Declares name d .product params → final.instance? d args = some v →
      ∃ decl body, base.productBody? d = some decl ∧ final.productBody? v = some body ∧
        body.fieldNames = decl.fieldNames ∧
        List.Forall₂ (fun field part =>
            StoreM.substituteAll (params.zip args) field final = (part, final))
          decl.fields body.fields ∧
        body.parent.isSome = decl.parent.isSome ∧
        ∀ s ∈ body.parent, ∃ sum ∈ decl.parent, final.instance? sum args = some s) ∧
    (∀ name d params args v, base.Declares name d .sum params → final.instance? d args = some v →
      ∃ tags ids, base.sumTags? d = some tags ∧ final.sumTags? v = some ids ∧
        List.Forall₂ (fun tag id => final.instance? tag args = some id) tags ids) := by
  intro base final
  have hb : base.Blueprint := ⟨hbodied, draft_runAll draft_new hdrafts⟩
  obtain ⟨hfinal, hproceeds⟩ := Permitted.runAll hb hb.elaborated hops
  have hloose : ∀ key, ¬ Loose base final key := fun key hl => hb.not_loose key (hproceeds.loose hl)
  refine ⟨?_, fun name d k params hd => (hfinal.declares hd).instance?_self, ?_,
    fun name d params args v hd hv => hfinal.sum_instance? hb hd hv⟩
  · rintro before op after act rfl hact
    obtain ⟨hbefore, hop, hafter⟩ := Along.append hops
    obtain ⟨hst, -⟩ := Permitted.runAll hb hb.elaborated hbefore
    obtain ⟨hnext, -⟩ := Permitted.run hb hst hop
    obtain ⟨-, hlater⟩ := Permitted.runAll hb hnext hafter
    obtain ⟨v, st', hrun, -, -, hanswer⟩ := (hop.answered hb hst hact).exists_ok fun _ hf => hf
    have hsplit : final = runAll after (op.run (runAll before base)) := runAll_append _ _ _
    rw [run_of_request? hact, hrun] at hlater hsplit
    refine ⟨v, by rw [hrun], hanswer final hfinal ?_⟩
    rw [hsplit]
    exact hlater
  · intro name d params args v hd hv
    obtain ⟨decl, body, hdecl, hbody, hnames, hfields, hparent⟩ :=
      hfinal.product_instance? hb hloose hd hv
    exact ⟨decl, body, hdecl, hbody, hnames, hfields.imp fun _ _ hr => hr.run_eq, hparent⟩

/-- A sum and a product over one parameter. -/
def declareCell : List Operation :=
  [.construct (.namedVar "a"), .declare .sum "Cell" ["a"], .declare .product "Full" ["a"]]

theorem drafts_declareCell : Along Drafts declareCell Store.new :=
  ⟨.build (.construct _), .declare _ _ _, .declare _ _ _, trivial⟩

theorem exists_declareCell : ∃ param cell full,
    let st := runAll declareCell Store.new
    st.Declares "Cell" cell .sum [param] ∧ st.Declares "Full" full .product [param] ∧
      (∀ ty : TypeId, st.nominals.bodies[ty]? = none) ∧
      ∀ {name ty}, st.declared? name = some ty → name = "Cell" ∨ name = "Full" := by
  obtain ⟨hle, hnom⟩ := (Builds.construct (.namedVar "a")).run Store.new
  have hfree : ∀ name, ((construct (.namedVar "a")).run Store.new).declared? name = none :=
    fun name => by
      rw [Store.declared?, hnom]
      exact declared?_new name
  have hdraft := draft_new.of_nominals hle hnom
  obtain ⟨cell, st₁, hrun₁, hdraft₁, hmore₁, ⟨vars, hcell, hnames₁⟩, hother₁, hbodies₁⟩ :=
    (draft_declare .sum "Cell" ["a"] hdraft).exists_ok fun _ h => h.2 (hfree _)
  obtain ⟨full, st₂, hrun₂, hdraft₂, hmore₂, ⟨vars', hfull, hnames₂⟩, hother₂, hbodies₂⟩ :=
    (draft_declare .product "Full" ["a"] hdraft₁).exists_ok fun _ h =>
      h.2 ((hother₁ "Full" (by decide)).trans (hfree _))
  obtain rfl : vars' = vars := hnames₂.unique (hnames₁.of_le hmore₂.le)
  obtain ⟨param, rfl⟩ : ∃ param, vars' = [param] :=
    List.length_eq_one_iff.mp hnames₂.length_eq.symm
  have hst : runAll declareCell Store.new = st₂ := by
    show ((DeclM.declare .product "Full" ["a"]).run
      ((DeclM.declare .sum "Cell" ["a"]).run _).2).2 = st₂
    rw [hrun₁, hrun₂]
  refine ⟨param, cell, full, ?_⟩
  rw [hst]
  refine ⟨hmore₂.declares hcell, hfull, fun ty => ?_, fun {name ty} hty => ?_⟩
  · rw [hbodies₂, hbodies₁, hnom]
    simp [Store.new]
  · by_contra hne
    rw [not_or] at hne
    rw [hother₂ name hne.2, hother₁ name hne.1, hfree] at hty
    cases hty

/-- The product gets a field of the type of the parameter, and becomes the tag of the sum. -/
def defineCell (param cell full : TypeId) : List Operation :=
  [.defineProduct full [param] [none], .defineSum cell [full]]

/-- Where nothing has a body yet. -/
theorem bodies_defineCell {st : Store} {param cell full : TypeId} (h : st.Draft)
    (hcell : st.Declares "Cell" cell .sum [param]) (hfull : st.Declares "Full" full .product [param])
    (hnone : ∀ ty : TypeId, st.nominals.bodies[ty]? = none) :
    let st' := runAll (defineCell param cell full) st
    SameButBodies st st' ∧ st'.sumTags? cell = some [full] ∧
      st'.productBody? full = some ⟨[param], [none], some cell⟩ := by
  have hne : cell ≠ full := by
    rintro rfl
    cases (hcell.unique_of_id hfull).2.1
  have hproduct : Gives (DeclM.defineProduct full [param] [none]) st _ _ :=
    draft_defineProduct h hfull.params_lt
  obtain ⟨_, st₁, hrun₁, h₁, hst₁⟩ :=
    hproduct.exists_ok fun _ hrefused => hrefused.2 _ _ hfull (hnone full)
  have hsame₁ := sameButBodies_setBody st full (.product ⟨[param], [none], none⟩)
  have hbody₁ : st₁.productBody? full = some ⟨[param], [none], none⟩ := by
    rw [productBody?_eq_some, hst₁, bodies_setBody, if_pos rfl]
  have hnone₁ : st₁.nominals.bodies[cell]? = none := by
    rw [hst₁, bodies_setBody, if_neg (Ne.symm hne)]
    exact hnone cell
  rw [← hst₁] at hsame₁
  have hsum : Gives (DeclM.defineSum cell [full]) st₁ _ _ := draft_defineSum h₁
  obtain ⟨_, st₂, hrun₂, -, hst₂⟩ := hsum.exists_ok fun _ hrefused =>
    hrefused.2 _ _ (hsame₁.declares.mpr hcell) hnone₁ (by
      simpa using ⟨_, _, hsame₁.declares.mpr hfull, hbody₁⟩)
  have hrun : runAll (defineCell param cell full) st = st₂ := by
    show ((DeclM.defineSum cell [full]).run
      ((DeclM.defineProduct full [param] [none]).run st).2).2 = st₂
    rw [hrun₁, hrun₂]
  have hbound : (st₁.bindParents cell [full]).productBody? full =
      some ⟨[param], [none], some cell⟩ :=
    productBody?_bindParents hbody₁ (by simp) (.inl rfl)
  rw [hrun, hst₂]
  refine ⟨hsame₁.trans ((sameButBodies_bindParents st₁ cell [full]).trans
    (sameButBodies_setBody _ cell (.sum [full]))), ?_, ?_⟩
  · rw [sumTags?_eq_some, bodies_setBody, if_pos rfl]
  · rw [productBody?_eq_some, bodies_setBody, if_neg hne]
    exact productBody?_eq_some.mp hbound

theorem bodied_defineCell : ∃ param cell full,
    let drafts := declareCell ++ defineCell param cell full
    let base := runAll drafts Store.new
    Along Drafts drafts Store.new ∧ base.Bodied ∧
      base.Declares "Cell" cell .sum [param] ∧ base.Declares "Full" full .product [param] ∧
      base.sumTags? cell = some [full] ∧
      base.productBody? full = some ⟨[param], [none], some cell⟩ := by
  obtain ⟨param, cell, full, hcell, hfull, hnone, hname⟩ := exists_declareCell
  have hdraft := draft_runAll draft_new drafts_declareCell
  obtain ⟨hsame, htags, hbody⟩ := bodies_defineCell hdraft hcell hfull hnone
  refine ⟨param, cell, full, ?_⟩
  intro drafts base
  have hbase : base = runAll (defineCell param cell full) (runAll declareCell Store.new) :=
    runAll_append _ _ _
  rw [hbase]
  have hdecl : ∀ {name d k params}, Declares (runAll (defineCell param cell full)
      (runAll declareCell Store.new)) name d k params →
        k = .sum ∧ d = cell ∨ k = .product ∧ d = full := by
    intro name d k params hd
    have hd := hsame.declares.mp hd
    rcases hname hd.declared with rfl | rfl
    · exact .inl ⟨(hd.unique hcell).2.1, (hd.unique hcell).1⟩
    · exact .inr ⟨(hd.unique hfull).2.1, (hd.unique hfull).1⟩
  refine ⟨?_, ⟨fun hd => ?_, fun hd => ?_, fun hd ht hmem hb => ?_⟩, hsame.declares.mpr hcell,
    hsame.declares.mpr hfull, htags, hbody⟩
  · refine ⟨.build (.construct _), .declare _ _ _, .declare _ _ _, .defineProduct ?_,
      .defineSum _ _, trivial⟩
    exact hfull.params_lt
  · rcases hdecl hd with ⟨hk, -⟩ | ⟨-, rfl⟩
    · cases hk
    · exact ⟨_, hbody⟩
  · rcases hdecl hd with ⟨-, rfl⟩ | ⟨hk, -⟩
    · exact ⟨_, htags⟩
    · cases hk
  · rcases hdecl hd with ⟨-, rfl⟩ | ⟨hk, -⟩
    · obtain rfl := Option.some.inj (htags.symm.trans ht)
      obtain rfl := List.mem_singleton.mp hmem
      rw [← Option.some.inj (hbody.symm.trans hb)]
    · cases hk

/-- The tag of a cell, asked for at a type, and a cell, replaced in and then asked for. -/
theorem runAll_monomorphic_cell : ∃ param cell full,
    let drafts := declareCell ++ defineCell param cell full
    let base := runAll drafts Store.new
    let first := runAll [.instantiate full [TypeId.i32]] base
    let ty := (StoreM.substituteAll [(param, TypeId.bool)] cell first).1
    let ops := [.instantiate full [TypeId.i32], .substituteAll [(param, TypeId.bool)] cell,
      .materialize ty]
    let final := runAll ops base
    Along Drafts drafts Store.new ∧ base.Bodied ∧ Along Permitted ops base ∧
      ∃ tag sum body, ((DeclM.instantiate full [TypeId.i32]).run base).1 = .ok tag ∧
        final.productBody? tag = some body ∧ body.parent = some sum ∧
        final.sumTags? sum = some [tag] ∧ final.instance? cell [TypeId.i32] = some sum ∧
        final.instance? full [TypeId.i32] = some tag := by
  obtain ⟨param, cell, full, hdrafts, hbodied, hcell, hfull, htags, hbody⟩ := bodied_defineCell
  refine ⟨param, cell, full, ?_⟩
  intro drafts base first ty ops final
  have hb : base.Blueprint := ⟨hbodied, draft_runAll draft_new hdrafts⟩
  have hfullApplied : base.Applied full "Full" .product [param] [param] full :=
    ⟨hfull, hfull.shape, rfl⟩
  have hplain : base.Unqualified [TypeId.i32] := List.forall_mem_singleton.mpr
    ⟨lt_size_of_prim .i32, bare_of_not_qualified (by rw [shape_prim .i32]; rfl)⟩
  have hfirst : Permitted base (.instantiate full [TypeId.i32]) :=
    .instantiate hfullApplied hplain rfl
  obtain ⟨hkeeps, -⟩ := Permitted.run hb hb.elaborated hfirst
  have hcell₁ := hkeeps.declares hcell
  have hbool : ∀ p ∈ [(param, TypeId.bool)], p.2 < first.size :=
    List.forall_mem_singleton.mpr (lt_size_of_prim .bool)
  obtain ⟨args, hty⟩ := Applied.substituteAll ⟨hcell₁, hcell₁.shape, rfl⟩ hbool
  have hops : Along Permitted ops base :=
    ⟨hfirst, .build (.substituteAll _ _), .materialize hty, trivial⟩
  refine ⟨hdrafts, hbodied, hops, ?_⟩
  obtain ⟨hanswered, -, hproduct, hsum⟩ := runAll_monomorphic drafts ops hdrafts hbodied hops
  obtain ⟨tag, hrun, d, hd, htag⟩ := hanswered [] (.instantiate full [TypeId.i32])
    [.substituteAll [(param, TypeId.bool)] cell, .materialize ty] _ rfl rfl
  rw [runAll_nil] at hrun hd
  obtain rfl := Option.some.inj ((hb.elaborated.declOf? hfullApplied).symm.trans hd)
  obtain ⟨decl, body, hdecl, htagBody, -, -, hsome, hparent⟩ := hproduct _ _ _ _ _ hfull htag
  obtain rfl := Option.some.inj (hbody.symm.trans hdecl)
  obtain ⟨sum, hsumOf⟩ := Option.isSome_iff_exists.mp hsome
  obtain ⟨cell', hcell', hinst⟩ := hparent sum hsumOf
  obtain rfl := Option.some.inj hcell'
  obtain ⟨tags, ids, htags', hids, hall⟩ := hsum _ _ _ _ _ hcell hinst
  obtain rfl := Option.some.inj (htags.symm.trans htags')
  obtain ⟨id, hid, rfl⟩ : ∃ id, final.instance? full [TypeId.i32] = some id ∧ ids = [id] := by
    cases hall with
    | cons hid hrest =>
      cases hrest
      exact ⟨_, hid, rfl⟩
  obtain rfl := Option.some.inj (htag.symm.trans hid)
  exact ⟨tag, sum, body, hrun, htagBody, hsumOf, hids, hinst, htag⟩

end Operation

end ConstraintTyping
