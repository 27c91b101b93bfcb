import ConstraintTyping.Check.TypedModule
import ConstraintTyping.Proofs.Types.Instances

/-!
# Giving types their bodies

In the end every product and sum that occurs in the type of an expression gets a body.  This makes
instances of declarations and nothing else, so the declarations stay what they are.
-/

namespace ConstraintTyping

open Store StoreM DeclM

variable {st : Store} {ty d : TypeId} {args : List TypeId}

theorem Store.mem_children_of_mem_nominalArgs {a : TypeId} (h : a ∈ st.nominalArgs ty) :
    a ∈ st.children ty := by
  show a ∈ (st.shape ty).children
  unfold nominalArgs at h
  cases hs : st.shape ty <;> rw [hs] at h <;> simp_all [Shape.nominalArgs, Shape.children]

namespace DeclM

/-- An instance is made from the declaration behind a type. -/
theorem declarationFor_run (ty : TypeId) (args : List TypeId) (st : Store) :
    (declarationFor ty args).run st = (match st.declOf? ty with
      | none => throw (.notNominal ty)
      | some decl => do
        if (st.nominalArgs decl).length ≠ args.length then
          throw (.argCount (st.nominalArgs decl).length args.length)
        return decl : DeclM TypeId).run st :=
  rfl

theorem instantiateWithin_declOf? (depth : Nat) (hself : st.declOf? d = some d)
    (hd : st.declOf? ty = some d) :
    (instantiateWithin (depth + 1) ty args).run st =
      (instantiateWithin (depth + 1) d args).run st := by
  have hfor : (declarationFor ty args).run st = (declarationFor d args).run st := by
    rw [declarationFor_run, declarationFor_run, hd, hself]
  rw [instantiateWithin, instantiateWithin, ExceptT.run_bind, ExceptT.run_bind,
    StateM.bind_apply, StateM.bind_apply, hfor]

theorem gives_instantiateWithin_declOf? (depth : Nat) (hco : st.Coherent) (ht : st.Traced)
    (hkind : st.kind ty = .product ∨ st.kind ty = .sum) (hargs : ∀ a ∈ args, st.Whole a) :
    Gives (instantiateWithin (depth + 1) ty args) st (EndsWell st) fun _ => EndsWell st := by
  cases hd : st.declOf? ty with
  | none =>
    have hfor : Gives (declarationFor ty args) st (EndsWell st) fun _ _ => False := by
      refine gives_get_bind ?_
      simp only [hd]
      exact gives_throw ⟨.refl st, hco⟩
    exact hfor.bind fun _ _ hfalse => hfalse.elim
  | some d =>
    obtain ⟨name, k, params, hdecl⟩ := ht.declares hco hkind hd
    unfold Gives
    rw [instantiateWithin_declOf? depth (hco.declOf?_self hdecl.declared) hd]
    exact (gives_instantiateWithin (depth + 1) hco hdecl hargs).mono (fun _ h => h)
      fun _ _ hmade => hmade.1

theorem gives_materialize (hco : st.Coherent) (ht : st.Traced) (hty : st.Whole ty)
    (hkind : st.kind ty = .product ∨ st.kind ty = .sum) :
    Gives (materialize ty) st (EndsWell st) fun _ => EndsWell st := by
  refine gives_get_bind ?_
  split
  · exact gives_pure ⟨.refl st, hco⟩
  · refine gives_get_bind (gives_instantiateWithin_declOf? _ hco ht hkind fun a ha => ?_)
    exact hty.child (mem_children_of_mem_nominalArgs ha)

end DeclM

/-- Giving the products and sums in a type their bodies is an advance. -/
theorem StoreM.endsWell_materializeAll (hco : st.Coherent) (ht : st.Traced) (hty : ty < st.size) :
    EndsWell st (materializeAll ty st).2 := by
  induction ty using Nat.strongRecOn generalizing st with
  | ind ty ih =>
    rw [materializeAll, StateM.bind_apply, StateM.get_apply]
    split
    · exact ⟨.refl st, hco⟩
    next hplain =>
    have hloop : ∀ (cs : List { c // c ∈ st.children ty }) (st' : Store), EndsWell st st' →
        EndsWell st ((cs.forM fun c => materializeAll c.1) st').2 := by
      intro cs
      induction cs with
      | nil => exact fun st' h => h
      | cons c cs ihs =>
        intro st' h
        have hc : c.1 < st'.size := lt_size_of_le h.1.le (lt_size_of_mem_children hty c.2)
        have hfirst := ih c.1 (lt_of_mem_children c.2) h.2 (h.1.traced ht) hc
        exact ihs _ ⟨h.1.trans hfirst.1, hfirst.2⟩
    split
    · next hkind =>
      have hwhole : st.Whole ty := ⟨hty, (hasError_eq_false_iff hty).mp (by simp_all)⟩
      have hends := (gives_materialize hco ht hwhole (by simpa using hkind)).end fun _ _ h => h
      exact hloop _ _ hends
    · exact hloop _ _ ⟨.refl st, hco⟩

end ConstraintTyping
