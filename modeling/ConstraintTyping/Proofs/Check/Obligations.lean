import ConstraintTyping.Proofs.Check.ErrorFree
import ConstraintTyping.Proofs.Check.Registered
import ConstraintTyping.Proofs.Check.Turns
import ConstraintTyping.Proofs.Infer.Sites
import ConstraintTyping.Proofs.Traits.Instances

/-!
# No obligation of a call is lost

Obligations are part of function types, which are copied when a function is used and not looked at
when types are unified.  They are settled where a function is called.  Whatever a call asks of its
callers is provided by an implementation, or it is about type variables and one of the functions that
are checked together asks it of its own callers.
-/

namespace ConstraintTyping

open Store StoreM TypeTree CheckState

/-! ## Names have function types -/

namespace CheckState

variable {s s' : CheckState} {config : CheckConfig} {group : List FunctionDecl}
  {gs : List (List FunctionDecl)}

/-- All functions have function types. -/
def OnlyFunctions (s : CheckState) : Prop :=
  ∀ (name : Name) (g : GlobalFn), s.globals[name]? = some g → (s.store.tree g.ty).IsFunction

/-- Whatever a name stands for has a function type. -/
theorem OnlyFunctions.typeOf (h : s.OnlyFunctions) (hs : s.Registered) {name : Name}
    {t : TypeTree} (ht : (s.context.surroundings s.store).TypeOf name t) : t.IsFunction := by
  obtain ⟨scheme, ρ, hname, rfl⟩ := ht
  refine IsFunction.subst ?_ _
  change s.context.scheme? s.store name = some scheme at hname
  unfold FindContext.scheme? at hname
  split at hname
  · next g hg =>
    obtain rfl := Option.some.inj hname
    exact h name g hg
  · obtain ⟨ty, hty, rfl⟩ := Option.map_eq_some_iff.mp hname
    exact (hs.methods.method hty).2

end CheckState

/-- Only a trait type is implemented. -/
theorem TraitTable.shape_of_isImplemented {t : TraitTable} {st : Store} {o : TypeId}
    (h : (t.isImplemented o st).1 = true) :
    ∃ name subject args, st.shape o = .trait name subject args := by
  cases hshape : st.shape o with
  | trait name subject args => exact ⟨name, subject, args, rfl⟩
  | _ =>
    unfold isImplemented at h
    rw [StateM.bind_apply, StateM.get_apply, hshape] at h
    cases h

/-- How an obligation is settled that is not about the error type, in any later store.  Whether an
implementation provides it is still what it was when it was looked up. -/
theorem CheckState.Settles.cases {s : CheckState} {st : Store} {retained : List TypeTree}
    {t : TypeTree} (h : s.Settles st retained t) (hfaultless : t.Faultless)
    (himpls : ∀ e ∈ s.traits.impls.toList, e.ty < st.size) {T : Store} (hle : s.store ≤ T)
    {o : TypeId} (ho : o < T.size) (hbare : T.bare o = o) (htree : T.tree o = t) :
    (s.traits.isImplemented o T).1 = true ∨ T.isGeneric o = true ∧ t ∈ retained := by
  obtain ⟨ty, hlt, rfl, hcases⟩ := h
  have hty := lt_size_of_le hle hlt
  have htrees : T.tree o = T.tree ty := htree.trans (tree_of_le hle hlt).symm
  rcases hcases with herror | ⟨hgeneric, hretained⟩ | ⟨hconcrete, mid, hmid, hmid_le, himpl⟩
  · rw [(hasError_eq_false_iff hlt).mpr hfaultless] at herror
    cases herror
  · refine .inr ⟨?_, hretained⟩
    rw [isGeneric_iff ho, htree]
    exact (isGeneric_iff hlt).mp hgeneric
  · have hmid_le' := hmid_le.trans hle
    obtain ⟨name, subject, args, hshape⟩ := TraitTable.shape_of_isImplemented himpl
    have hmem : ty < mid.size := lt_size_of_shape_ne (by rw [hshape]; simp)
    have hbare' : T.bare ty = ty := bare_of_not_qualified (by
      rw [shape_of_le hmid_le' hmem, hshape]
      rfl)
    obtain rfl := eq_of_tree_eq ho hty hbare hbare' htrees
    have hanswer := TraitTable.isImplemented_of_le (fun e he => lt_size_of_le hmid (himpls e he)) hmem
      ((isGeneric_of_le hmid_le hmem).symm.trans hconcrete) hmid_le'
    exact .inl (hanswer.trans himpl)

namespace TypedModule

/-- A type is an instance of the type of a function or method. -/
def IsInstance (t : TypedModule) (name : Name) (ty : TypeId) : Prop :=
  ∃ g φ, (t.functions[name]?).or (t.traits.method? name) = some g ∧
    t.store.tree ty = (t.store.tree g).subst φ

end TypedModule

namespace Module.Turn

variable {m : Module} {config : CheckConfig} {log : DiagnosticLog}
  {pre post : List (List FunctionDecl)} {group : List FunctionDecl} {s s' : CheckState}
  {total : Found} {last : Bound} {retained : List TypeTree}
  (h : m.Turn config log pre group post s s' total last retained)

include h

/-- The walk over the group visits the nodes of its bodies with the local names at each. -/
theorem visits {f : FunctionDecl} (hf : f ∈ group) :
    (s.context.surroundings s.store).Visits total f.scoped := by
  rw [← h.waits.map_members] at hf
  obtain ⟨⟨f, ty⟩, hmember, rfl⟩ := List.mem_map.mp hf
  obtain ⟨sig, body, S₁, S₂, hsig, hbody, -, ⟨t, S₃, Δ, hfinds, rfl⟩, hgrows⟩ :=
    h.publishes.finds.member hmember
  -- parameters are bound to as many types
  have hlen : f.params.length = (sig.params.map s'.store.tree).length := by
    have hsignature := (h.waits.member hmember).2.2
    obtain ⟨sig', hsig', hparams, -⟩ := hsignature.signature
    rw [FindM.signature?_of_le h.checks.store.1.le hsignature.sound.1, hsig'] at hsig
    obtain rfl := Option.some.inj hsig
    rw [List.length_map]
    exact hparams.length_eq
  have hscoped : f.scoped = (body.scoped (Locals.bindParams [] f.params)).1 := by
    rw [FunctionDecl.scoped, hbody]
    rfl
  have htracks : (s.context.surroundings s.store).Tracks [] [] := .nil
  rw [hscoped]
  exact (hfinds.visits (htracks.bindParams hlen)).1.grows ((Found.grows_ask ..).trans hgrows)

/-- What is found in the bodies of the group is without the error type, and so is its solution. -/
theorem faultless {r : ExprId × TypeTree} (hr : r ∈ total.records) :
    (applyAll last r.2).Faultless := by
  have hprepared : (m.prepared config log).Clean :=
    Nat.le_zero.mp (h.before.errors.trans_eq h.clean_before)
  have hfree := h.before.errorFree (m.errorFree_prepared config log hprepared) h.clean_before
  obtain ⟨htotal, hlast, -⟩ := h.publishes.found_faultless h.checks.store.1.le h.waits hfree
    h.ready.registered h.clean_before
  exact inherited_faultless.applyAll (htotal.records r hr) hlast

end Module.Turn

end ConstraintTyping
