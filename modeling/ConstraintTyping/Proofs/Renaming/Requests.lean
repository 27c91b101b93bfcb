import ConstraintTyping.Proofs.Renaming.Making

/-!
# Requests side by side

Declaring a type, giving it a body, asking for an instance and giving a type its body answer alike in
stores that declare the same up to a renaming, and such stores declare the same afterwards.  Traits
are left out of requests for instances: they outlive what is declared, with the instances that they
have.
-/

namespace ConstraintTyping

open Store StoreM DeclM

namespace Store

variable {st st' : Store} {ty : TypeId} {name : Name} {k : DeclKind} {args : List TypeId}

/-- A declaration stays one while the same is declared. -/
theorem Accrues.isDeclaration (h : st.Accrues st') (ha : st.Anchored) (ha' : st'.Anchored)
    (hty : st.kind ty = k.kind) (hdecl : st.isDeclaration ty = true) :
    st'.nominals.declOf[ty]? = some ty := by
  obtain ⟨name, args, hshape⟩ := exists_shape_of_kind hty
  rw [ha.isDeclaration_iff hshape, ← h.declared? name] at hdecl
  exact (ha'.declares hdecl).1

theorem Anchored.suffices_instantiationDepth (h : st.Anchored) (k : DeclKind) (args : List TypeId) :
    2 * (st.pending args).card + leastDepth k ≤ instantiationDepth st := by
  have hcard := card_pending_le (fun hname => (h.declares hname).1) args
  unfold instantiationDepth
  cases k <;> simp only [leastDepth] <;> omega

end Store

namespace DeclM

theorem instantiateWithin_run_of_none {st : Store} {ty : TypeId} (h : st.declOf? ty = none)
    (depth : Nat) (args : List TypeId) :
    (instantiateWithin depth ty args).run st = (.error (.notNominal ty), st) := by
  cases depth with
  | zero => rfl
  | succ depth =>
    rw [instantiateWithin_succ, findOr, ExceptT.run_bind, StateM.bind_apply, declarationFor_run, h]
    rfl

end DeclM

namespace Renaming

variable {R : Renaming} {old w : Stores} {u : Accruing} {a b : TypeId} {as bs : List TypeId}
  {names : List (Option Name)} {α β γ δ : Type}

/-! ## Instances -/

theorem makes_instantiate (hab : R.Alike u.stores a b) (htrait : u.stores.1.kind a ≠ .trait)
    (hargs : R.AllAlike u.stores as bs) :
    R.Makes old (instantiate a as) (instantiate b bs) u R.Alike := by
  refine makes_get_bind fun hdecl => ?_
  by_cases hkind : ∃ k : DeclKind, u.stores.1.kind a = k.kind
  · obtain ⟨k, hk⟩ := hkind
    refine (makes_instantiateWithin _ _ ⟨hab, hk⟩ hargs (hdecl.left.suffices_instantiationDepth k as)
      (hdecl.right.suffices_instantiationDepth k bs)).mono fun u' x y _ hxy => ?_
    cases hxy with
    | ok hvv => exact .ok hvv.toAlike
    | error he => exact .error he
  · obtain ⟨hnone, hnone'⟩ := hdecl.declOf?_eq_none hab htrait fun k hk => hkind ⟨k, hk⟩
    generalize instantiationDepth u.stores.1 = n
    generalize instantiationDepth u.stores.2 = n'
    rintro s t ⟨⟨rfl, rfl, hlock⟩, hdecl⟩
    rw [instantiateWithin_run_of_none hnone, instantiateWithin_run_of_none hnone']
    exact ⟨u, le_rfl, ⟨⟨rfl, rfl, hlock⟩, hdecl⟩, .error (.notNominal hab)⟩

theorem makes_materialize (hab : R.Alike u.stores a b) (htrait : u.stores.1.kind a ≠ .trait) :
    R.Makes old (materialize a) (materialize b) u R.Alike := by
  refine makes_get_bind fun hdecl => ?_
  rw [hdecl.hasBody_eq hab]
  split
  · exact coupled_pureExcept hab
  · exact makes_instantiate hab htrait hab.nominalArgs

theorem makes_instantiateAtFresh (hab : R.Alike u.stores a b) (htrait : u.stores.1.kind a ≠ .trait) :
    R.Makes old (instantiateAtFresh a) (instantiateAtFresh b) u R.Alike := by
  refine makes_get_bind fun hdecl => ?_
  by_cases hkind : ∃ k : DeclKind, u.stores.1.kind a = k.kind
  · obtain ⟨k, hk⟩ := hkind
    have hrel := hdecl.declOf? ⟨hab, hk⟩
    generalize u.stores.1.declOf? a = x at hrel
    generalize u.stores.2.declOf? b = y at hrel
    cases hrel with
    | none => exact coupled_refuse (.notNominal hab)
    | @some d d' hdd =>
      have hloop := coupled_mapMExcept (e := fun u => R.AlikeRefusal u.stores)
        (S := fun u : Accruing => R.InUnit old u.stores) (f := fun _ => liftM freshVar)
        (g := fun _ => liftM freshVar) R.stable_alike_accruing R.stable_alike_accruing
        (fun u₁ _ _ _ _ => Couples.makes (couples_freshVar R u₁.stores) builds_freshVar
          builds_freshVar) hdd.alike.nominalArgs
      refine hloop.bindExcept fun u₁ args args' hle hargs => ?_
      have hdd₁ := hdd.alikeOf.of_le (Accruing.stores_le hle)
      exact makes_instantiate hdd₁.toAlike (by rw [hdd₁.kind]; exact k.kind_ne_trait) hargs
  · obtain ⟨hnone, hnone'⟩ := hdecl.declOf?_eq_none hab htrait fun k hk => hkind ⟨k, hk⟩
    rw [hnone, hnone']
    exact coupled_refuse (.notNominal hab)

/-! ## Bodies -/

/-- Whether something is no declaration of a kind is answered alike. -/
theorem DeclareAlike.refuses_eq {w : Stores} (h : R.DeclareAlike old w) (k : DeclKind)
    (hab : R.Alike w a b) : (decide (w.2.kind b ≠ k.kind) || !w.2.isDeclaration b) =
      (decide (w.1.kind a ≠ k.kind) || !w.1.isDeclaration a) := by
  rw [hab.kind_eq]
  by_cases hkind : w.1.kind a = k.kind
  · rw [h.isDeclaration_eq ⟨hab, hkind⟩]
  · rw [decide_eq_true hkind, Bool.true_or, Bool.true_or]

/-- What is not refused is a declaration of its kind. -/
theorem declaration_of_not_refused {st : Store} {ty : TypeId} {κ : Kind}
    (h : ¬ (decide (st.kind ty ≠ κ) || !st.isDeclaration ty) = true) :
    st.kind ty = κ ∧ st.isDeclaration ty = true := by
  rw [Bool.or_eq_true, not_or] at h
  exact ⟨by simpa using h.1, by simpa using h.2⟩

theorem makes_defineProduct (hab : R.Alike u.stores a b) (hfields : R.AllAlike u.stores as bs) :
    R.Makes old (defineProduct a as names) (defineProduct b bs names) u fun _ _ _ => True := by
  refine makes_get_bind fun hdecl => ?_
  have hrefuses := hdecl.refuses_eq .product hab
  refine coupled_refuse_bind (Bool.eq_iff_iff.mp hrefuses.symm) (fun _ => .notNominal hab)
    fun hown => ?_
  refine coupled_refuse_bind (Bool.eq_iff_iff.mp (hdecl.hasBody_eq hab).symm)
    (fun _ => .bodyAlreadyDefined hab) fun _ => ?_
  obtain ⟨hkind, hlink⟩ := declaration_of_not_refused hown
  obtain ⟨-, hlink'⟩ := declaration_of_not_refused (hrefuses ▸ hown)
  refine makes_modify (fun st => sameButBodies_setBody st a _) (fun st => sameButBodies_setBody st b _)
    fun _ => hdecl.setBody (k := .product) hab (.product rfl hfields .none) hkind ?_ ?_
  · rw [eq_of_beq hlink]
    rfl
  · rw [eq_of_beq hlink']
    rfl

/-- A product is made a tag, and what becomes a tag is a product. -/
theorem makes_bindTag {sum sum' : TypeId} (hab : R.Alike u.stores a b)
    (hsum : R.AlikeOf .sum u.stores sum sum') :
    R.Makes old (bindTag sum a) (bindTag sum' b) u fun w _ _ => R.AlikeOf .product w a b := by
  refine makes_get_bind fun hdecl => ?_
  refine coupled_refuse_bind (by rw [hab.kind_eq]) (fun _ => .notNominal hab) fun hkind => ?_
  refine coupled_refuse_bind (not_congr (AllAlike.eq_iff hab.nominalArgs hsum.nominalArgs))
    (fun _ => .tagParamsMismatch hab hsum.toAlike) fun _ => ?_
  refine coupled_refuse_bind ?_ (fun _ => .bodyNotDefined hab) fun _ => ?_
  · have hrel := hdecl.productBody? hab
    generalize u.stores.1.productBody? a = x at hrel
    generalize u.stores.2.productBody? b = y at hrel
    cases hrel <;> rfl
  refine (makes_modify (fun st => sameButBodies_bindParent st a sum)
    (fun st => sameButBodies_bindParent st b sum') fun hdecl => hdecl.bindParent hab hsum).mono
    fun u' x y hle hxy => ?_
  cases hxy with
  | ok _ => exact .ok (AlikeOf.of_le ⟨hab, not_not.mp hkind⟩ (Accruing.stores_le hle))
  | error he => exact .error he

theorem makes_defineSum (hab : R.Alike u.stores a b) (htags : R.AllAlike u.stores as bs) :
    R.Makes old (defineSum a as) (defineSum b bs) u fun _ _ _ => True := by
  refine makes_get_bind fun hdecl => ?_
  have hrefuses := hdecl.refuses_eq .sum hab
  refine coupled_refuse_bind (Bool.eq_iff_iff.mp hrefuses.symm) (fun _ => .notNominal hab)
    fun hown => ?_
  refine coupled_refuse_bind (Bool.eq_iff_iff.mp (hdecl.hasBody_eq hab).symm)
    (fun _ => .bodyAlreadyDefined hab) fun _ => ?_
  obtain ⟨hkind, hlink⟩ := declaration_of_not_refused hown
  obtain ⟨hkind', hlink'⟩ := declaration_of_not_refused (hrefuses ▸ hown)
  have hloop := coupled_forMExcept (e := fun u => R.AlikeRefusal u.stores)
    (S := fun u : Accruing => R.InUnit old u.stores) (f := bindTag a) (g := bindTag b)
    R.stable_alike_accruing (R.stable_alikeOf_accruing .product)
    (fun u₁ tag tag' hle htag =>
      makes_bindTag htag (AlikeOf.of_le ⟨hab, hkind⟩ (Accruing.stores_le hle))) htags
  refine Coupled.bindExcept (r := fun u _ _ => List.Forall₂ (R.AlikeOf .product u.stores) as bs) hloop
    fun u₁ _ _ hle hproducts => ?_
  have hab₁ := hab.of_le (Accruing.stores_le hle)
  refine makes_modify (fun st => sameButBodies_setBody st a _) (fun st => sameButBodies_setBody st b _)
    fun hdecl₁ => ?_
  -- the tags were bound to declarations, which are there still
  refine hdecl₁.setBody (k := .sum) hab₁ (.sum hproducts)
    ((kind_of_le hle.1.le hab.left_lt).trans hkind) ?_ ?_
  · rw [hle.1.isDeclaration hdecl.left hdecl₁.left (k := .sum) hkind hlink]
    rfl
  · rw [hle.2.isDeclaration hdecl.right hdecl₁.right (k := .sum) hkind' hlink']
    rfl

end Renaming

end ConstraintTyping
