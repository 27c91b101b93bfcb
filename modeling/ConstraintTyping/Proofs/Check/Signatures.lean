import ConstraintTyping.Proofs.Check.Register

/-!
# Signatures

Every function gets a function type over what is written of it before any body is checked.  Of
several functions of one name the first counts.  A function without a body is finished with that
type, and the finished functions are those whose types are on record.
-/

namespace ConstraintTyping

open Store StoreM TypeTree

namespace CheckState

variable {s s' : CheckState} {f : FunctionDecl} {ty : TypeId}

/-- A type is the one that is written, if one is and nothing was reported. -/
structure WrittenAs (s : CheckState) (written : Option TypeExpr) (ty : TypeId) : Prop where
  sound : s.Sound ty
  denotes : s.Clean → ∀ w, written = some w → s.store.declarations.Denotes var w (s.store.tree ty)

theorem Registered.declarations (h : s.Registered) (hends : DeclM.EndsWell s.store s'.store) :
    s'.store.declarations = s.store.declarations :=
  declarations_of_advances h.coherent h.complete hends.2 hends.1

theorem WrittenAs.of_endsWell {written : Option TypeExpr} (h : s.WrittenAs written ty)
    (hs : s.Registered) (hends : DeclM.EndsWell s.store s'.store)
    (herrors : s.log.errorCount ≤ s'.log.errorCount) : s'.WrittenAs written ty where
  sound := h.sound.of_le hends.1.le herrors
  denotes hclean w hw := by
    rw [hs.declarations hends, tree_of_le hends.1.le h.sound.1]
    exact h.denotes (Nat.le_zero.mp (herrors.trans_eq hclean)) w hw

theorem WrittenAs.of_advances {written : Option TypeExpr} (h : s.WrittenAs written ty)
    (hs : s.Registered) (hadv : s.Advances s') : s'.WrittenAs written ty :=
  h.of_endsWell hs hadv.endsWell hadv.errors

/-- Qualifiers are not a part of the tree of a type. -/
theorem WrittenAs.bare {written : Option TypeExpr} (h : s.WrittenAs written ty) :
    s.WrittenAs written (s.store.bare ty) where
  sound := ⟨bare_lt_size h.sound.1, fun hclean =>
    ⟨bare_lt_size h.sound.1, by rw [tree_bare]; exact (h.sound.2 hclean).2⟩⟩
  denotes hclean w hw := by
    rw [tree_bare]
    exact h.denotes hclean w hw

/-- A function type over what is written of a function. -/
structure SignatureOf (s : CheckState) (f : FunctionDecl) (ty : TypeId) : Prop where
  sound : s.Sound ty
  signature : ∃ sig, s.store.signature? ty = some sig ∧
    List.Forall₂ (fun (p : Param) t => s.WrittenAs p.written t) f.params sig.params ∧
    s.WrittenAs f.ret sig.ret ∧
    (s.Clean → List.Forall₂ (CheckM.Refers s.store.declarations s.store) f.given sig.givens)

theorem SignatureOf.of_endsWell (h : s.SignatureOf f ty) (hs : s.Registered)
    (hends : DeclM.EndsWell s.store s'.store) (herrors : s.log.errorCount ≤ s'.log.errorCount) :
    s'.SignatureOf f ty where
  sound := h.sound.of_le hends.1.le herrors
  signature := by
    obtain ⟨sig, hsig, hparams, hret, hgivens⟩ := h.signature
    refine ⟨sig, ?_, hparams.imp fun _ _ h => h.of_endsWell hs hends herrors,
      hret.of_endsWell hs hends herrors, fun hclean => ?_⟩
    · rw [Store.signature?, shape_of_le hends.1.le h.sound.1]
      exact hsig
    · rw [hs.declarations hends]
      exact (hgivens (Nat.le_zero.mp (herrors.trans_eq hclean))).imp fun _ _ h => h.of_le hends.1.le

/-- The functions of a list have their provisional types. -/
structure Collected (fs : List FunctionDecl) (s : CheckState) : Prop where
  registered : s.Registered
  /-- A name stands for the first function that has it. -/
  global : ∀ {name : Name} {g : GlobalFn}, s.globals[name]? = some g →
    ∃ f, fs.find? (·.name = name) = some f ∧ g.finished = f.body.isNone ∧ s.SignatureOf f g.ty
  covers : ∀ f ∈ fs, (s.globals[f.name]?).isSome = true
  functions : ∀ name : Name,
    s.functions[name]? = ((s.globals[name]?).filter (·.finished)).map (·.ty)
  exprTypes : s.exprTypes = {}

end CheckState

namespace CheckM

open CheckState

variable {s : CheckState}

theorem ends_resolveOrFresh (written : Option TypeExpr) (span : Span) (hs : s.Registered) :
    Ends (resolveOrFresh written span) s fun ty s' => s.Advances s' ∧ s'.WrittenAs written ty := by
  cases written with
  | some w =>
    refine (ends_resolve w span hs.coherent rfl).mono ?_
    rintro ty s' ⟨hadv, hlt, hresolves⟩
    refine ⟨hadv, ⟨hlt, fun hclean => (hresolves hclean).whole⟩, fun hclean w' hw' => ?_⟩
    obtain rfl := Option.some.inj hw'
    rw [hs.declarations hadv.endsWell]
    exact (hresolves hclean).2
  | none =>
    have hnew := newVars_freshVar s.store
    obtain ⟨x, hx⟩ := Shape.isVar_iff.mp (hnew.isVar (List.mem_singleton_self _))
    have hwhole : (StoreM.freshVar s.store).2.Whole (StoreM.freshVar s.store).1 := by
      refine ⟨hnew.lt_size (List.mem_singleton_self _), ?_⟩
      rw [tree_of_var hx]
      exact faultless_var x
    have hadv := Advances.of_builds hs.coherent builds_freshVar
    exact ends_build (Q := fun ty s' => s.Advances s' ∧ s'.WrittenAs none ty)
      ⟨hadv, ⟨hwhole.1, fun _ => hwhole⟩, fun _ w hw => by cases hw⟩

/-- Results that are all there, without the option. -/
theorem forall₂_filterMap_of_some {α β : Type} {R : α → β → Prop} {xs : List α}
    {ys : List (Option β)} (h : List.Forall₂ (fun x y => ∃ b, y = some b ∧ R x b) xs ys) :
    List.Forall₂ R xs (ys.filterMap (·)) := by
  induction h with
  | nil => exact .nil
  | cons hx _ ih =>
    obtain ⟨b, rfl, hb⟩ := hx
    exact .cons hb ih

/-- The provisional type of a function is over what is written of it. -/
theorem ends_signature (f : FunctionDecl) (hs : s.Registered) :
    Ends (signature f) s fun ty s' => s.Advances s' ∧ s'.SignatureOf f ty := by
  refine (ends_mapM (P := fun p ty s' => s'.Registered ∧ s'.WrittenAs p.written ty) f.params
    hs.coherent ?_ ?_).bind ?_
  · intro p ty s₁ s₂ hadv h
    exact ⟨h.1.of_advances hadv, h.2.of_advances h.1 hadv⟩
  · intro p _ s' hs'
    refine (ends_resolveOrFresh p.written p.span (hs.of_advances hs')).mono ?_
    exact fun ty s'' h => ⟨h.1, (hs.of_advances hs').of_advances h.1, h.2⟩
  rintro params s₁ ⟨hadv₁, hparams⟩
  have hs₁ := hs.of_advances hadv₁
  refine (ends_resolveOrFresh f.ret f.span hs₁).bind ?_
  rintro ret s₂ ⟨hadv₂, hret⟩
  have hs₂ := hs₁.of_advances hadv₂
  refine (ends_mapM (P := fun r made s' => (∀ o ∈ made, o < s'.store.size) ∧
    (s'.Clean → ∃ o, made = some o ∧ Refers s₂.store.declarations s'.store r o)) f.given
    hs₂.coherent ?_ fun r _ s' hs' =>
      ends_resolveTraitRef _ r hs'.coherent (hs'.type? hs₂.coherent)).bind ?_
  · intro r made s₄ s₅ hadv h
    refine ⟨fun o ho => lt_size_of_le hadv.store.le (h.1 o ho), fun hclean => ?_⟩
    obtain ⟨o, ho, hrefers⟩ := h.2 (hadv.clean hclean)
    exact ⟨o, ho, hrefers.of_le hadv.store.le⟩
  rintro givens s₃ ⟨hadv₃, hgivens⟩
  have hparams₃ : List.Forall₂ (fun (p : Param) ty => s₃.WrittenAs p.written ty) f.params params :=
    hparams.imp fun _ _ h => h.2.of_advances hs₁ (hadv₂.trans hadv₃)
  have hret₃ := hret.of_advances hs₂ hadv₃
  let sig : Signature TypeId :=
    { ret, params, givens := givens.filterMap (·), isMeta := f.isMeta, isVariadic := f.isVariadic }
  have hsound : ∀ c ∈ sig.children, s₃.Sound c := by
    intro c hc
    simp only [sig, Signature.children, List.mem_cons, List.mem_append] at hc
    rcases hc with (rfl | hc) | hc
    · exact hret₃.sound
    · obtain ⟨p, -, h⟩ := exists_mem_of_forall₂ hparams₃ hc
      exact h.sound
    · obtain ⟨made, hmade, rfl⟩ := List.mem_filterMap.mp hc
      obtain ⟨bound, -, hlt, hrefers⟩ := exists_mem_of_forall₂ hgivens hmade
      refine ⟨hlt c rfl, fun hclean => ?_⟩
      obtain ⟨o, ho, hrefers⟩ := hrefers hclean
      obtain rfl := Option.some.inj ho
      exact hrefers.whole
  obtain ⟨hlt, hshape⟩ := (@yields_intern s₃.store (.function sig) rfl
    fun c hc => (hsound c hc).1).result
  have hadv₄ := Advances.of_builds hadv₃.coherent (builds_intern (.function sig))
  have hs₃ := hs₂.of_advances hadv₃
  refine ends_build ⟨(hadv₁.trans hadv₂).trans (hadv₃.trans hadv₄), ⟨hlt, fun hclean => ?_⟩,
    sig.map s₃.store.bare, ?_, ?_, hret₃.bare.of_advances hs₃ hadv₄, fun hclean => ?_⟩
  · exact whole_intern rfl rfl fun c hc => (hsound c hc).2 hclean
  · exact congrArg Shape.signature? hshape
  · exact List.forall₂_map_right_iff.mpr
      (hparams₃.imp fun _ _ h => h.bare.of_advances hs₃ hadv₄)
  · have hall := forall₂_filterMap_of_some (hgivens.imp fun _ _ h => h.2 (hadv₄.clean hclean))
    rw [← hs₂.declarations (hadv₃.trans hadv₄).endsWell] at hall
    exact List.forall₂_map_right_iff.mpr (hall.imp fun _ _ h => h.bare.of_le hadv₄.store.le)

/-- One more function gets its provisional type, unless its name is taken. -/
theorem ends_collectSignature (f : FunctionDecl) {fs : List FunctionDecl} (h : s.Collected fs) :
    Ends (collectSignature f) s fun _ s' => s'.Collected (fs ++ [f]) := by
  refine ends_get_bind ?_
  split
  · next htaken =>
    refine (ends_report _ s).mono ?_
    rintro _ s' ⟨hsame, hstore, -⟩
    have hadv : s.Advances s' :=
      ⟨hsame, by rw [hstore]; exact .refl _, by rw [hstore]; exact h.registered.coherent⟩
    refine ⟨h.registered.of_advances hadv, fun hg => ?_, fun f' hf' => ?_, ?_,
      hsame.exprTypes.trans h.exprTypes⟩
    · rw [hsame.globals] at hg
      obtain ⟨f', hf', hfin, hsig⟩ := h.global hg
      refine ⟨f', ?_, hfin, hsig.of_endsWell h.registered hadv.endsWell hadv.errors⟩
      rw [List.find?_append, hf']
      rfl
    · rw [hsame.globals]
      rcases List.mem_append.mp hf' with hf' | hf'
      · exact h.covers f' hf'
      · rw [List.mem_singleton.mp hf', ← Std.HashMap.contains_eq_isSome_getElem?]
        exact htaken
    · rw [hsame.globals, hsame.functions]
      exact h.functions
  next hfree =>
  have hnone : s.globals[f.name]? = none := by
    rw [Std.HashMap.contains_eq_isSome_getElem?] at hfree
    simpa using hfree
  have hfirst : fs.find? (·.name = f.name) = none := by
    refine List.find?_eq_none.mpr fun f' hf' heq => ?_
    have hsome := h.covers f' hf'
    rw [of_decide_eq_true heq, hnone] at hsome
    cases hsome
  refine (ends_signature f h.registered).bind ?_
  rintro ty s₁ ⟨hadv, hsig⟩
  have hglobals : ∀ name : Name, (s₁.globals.insert f.name ⟨ty, f.body.isNone⟩)[name]? =
      if f.name = name then some ⟨ty, f.body.isNone⟩ else s.globals[name]? := fun name => by
    rw [Std.HashMap.getElem?_insert, hadv.globals]
    simp only [beq_iff_eq]
  have hs₁ := h.registered.of_advances hadv
  refine ends_modify ⟨⟨hs₁.coherent, hs₁.complete, hs₁.traced, hs₁.methods, hs₁.faultless⟩,
    ?_, ?_, ?_, hadv.exprTypes.trans h.exprTypes⟩
  · intro name g hg
    rw [hglobals] at hg
    split at hg
    · next heq =>
      obtain rfl := Option.some.inj hg
      subst heq
      refine ⟨f, ?_, rfl, hsig.of_endsWell hs₁ ⟨.refl _, hs₁.coherent⟩ le_rfl⟩
      rw [List.find?_append, hfirst]
      simp
    · obtain ⟨f', hf', hfin, hsig'⟩ := h.global hg
      refine ⟨f', ?_, hfin, hsig'.of_endsWell h.registered hadv.endsWell hadv.errors⟩
      rw [List.find?_append, hf']
      rfl
  · intro f' hf'
    rw [hglobals]
    split
    · rfl
    · next hne =>
      rcases List.mem_append.mp hf' with hf' | hf'
      · exact h.covers f' hf'
      · exact absurd (congrArg FunctionDecl.name (List.mem_singleton.mp hf')).symm hne
  · intro name
    rw [hglobals]
    by_cases heq : f.name = name
    · subst heq
      cases hbody : f.body.isNone with
      | true => simp
      | false =>
        have hold := h.functions f.name
        rw [hnone] at hold
        rw [if_pos rfl, Option.filter_some, if_neg Bool.false_ne_true]
        simpa [hadv.functions] using hold
    · rw [if_neg heq, ← h.functions name]
      cases hbody : f.body.isNone with
      | true => simp [Std.HashMap.getElem?_insert, heq, hadv.functions]
      | false => simp [hadv.functions]

theorem ends_collectSignatures (fs : List FunctionDecl) {done : List FunctionDecl}
    (h : s.Collected done) :
    Ends (fs.forM collectSignature) s fun _ s' => s'.Collected (done ++ fs) := by
  induction fs generalizing s done with
  | nil => exact ends_pure (by simpa using h)
  | cons f fs ih =>
    refine (ends_collectSignature f h).bind fun _ s₁ h₁ => ?_
    exact (ih h₁).mono fun _ s₂ h₂ => by simpa using h₂

end CheckM

end ConstraintTyping
