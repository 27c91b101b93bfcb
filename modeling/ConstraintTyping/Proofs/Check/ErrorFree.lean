import ConstraintTyping.Proofs.Check.Accepted
import ConstraintTyping.Proofs.Infer.Faultless

/-!
# No silent error

The error type agrees with every type, so where it comes up unreported, nothing is checked any more.
It does not: as long as no error is counted, it is in no body of a type, in no type of a function, and
in no type of an expression.  One group after the other keeps that up.
-/

namespace ConstraintTyping

open Store TypeTree

namespace CheckState

variable {s s' : CheckState} {config : CheckConfig} {group : List FunctionDecl}
  {gs : List (List FunctionDecl)}

/-- The error type is in no type of a function and in no type of an expression. -/
structure ErrorFree (s : CheckState) : Prop where
  global : ∀ {name : Name} {g : GlobalFn}, s.globals[name]? = some g → s.store.Whole g.ty
  exprType : ∀ {id : ExprId} {ty : TypeId}, s.exprTypes[id]? = some ty → s.store.Whole ty

/-- What bodies refer to is without the error type. -/
theorem ErrorFree.surroundings (h : s.ErrorFree) (hs : s.Registered) (hclean : s.Clean) :
    (s.context.surroundings s.store).Faultless where
  fields := by
    intro name p hp t ht
    obtain ⟨d, params, body, -, hbody, rfl⟩ := exists_of_product? hs.coherent hp
    obtain ⟨f, hf, rfl⟩ := List.mem_map.mp ht
    exact (hs.faultless hclean d _ (productBody?_eq_some.mp hbody) f
      (List.mem_append_left _ hf)).2
  names := by
    intro name scheme hname
    change s.context.scheme? s.store name = some scheme at hname
    unfold FindContext.scheme? at hname
    split at hname
    · next g hg =>
      obtain rfl := Option.some.inj hname
      exact (h.global hg).2
    · obtain ⟨ty, hty, rfl⟩ := Option.map_eq_some_iff.mp hname
      exact ((hs.methods.method hty).1.2 hclean).2

section Publish

variable {total : Found} {last : Bound} {retained : List TypeTree}

/-- What a published group was found to ask for, and its solution, are without the error type. -/
theorem Publishes.found_faultless (h : Publishes config group s s' total last retained)
    (hle : s.store ≤ s'.store) (hwaits : s.Waits group) (hfree : s.ErrorFree) (hs : s.Registered)
    (hclean : s.Clean) : total.Faultless ∧ (∀ p ∈ last, p.2.Faultless) ∧
      ∀ m ∈ s.members group, (applyAll last (s'.store.tree m.2)).Faultless := by
  have hmembers : ∀ m ∈ s.members group, (s'.store.tree m.2).Faultless := fun m hm =>
    ((hfree.global (hwaits.member hm).2.1).of_le hle).2
  have htotal : total.Faultless := h.finds.faultless (hfree.surroundings hs hclean)
    ⟨by simp, by simp⟩ hmembers
  have hlast := h.solves.faultless htotal.equations (by simp)
  exact ⟨htotal, hlast, fun m hm => inherited_faultless.applyAll (hmembers m hm) hlast⟩

/-- A general form takes over obligations without the error type and renames variables. -/
theorem faultless_of_isGeneralForm {g member : TypeTree} {members : List TypeTree}
    (h : g.IsGeneralForm member members retained) (hmember : member.Faultless)
    (hretained : ∀ o ∈ retained, o.Faultless) : g.Faultless := by
  obtain ⟨sig, givens, ρ, rfl, hgivens, -, rfl⟩ := h
  obtain ⟨hret, hparams, hsig⟩ := faultless_function.mp hmember
  have hall : ∀ o ∈ givens, o.Faultless := fun o ho =>
    ((hgivens o).mp ho).elim (hsig o) fun ho => hretained o ho.1
  have hfull : (TypeTree.mk (.function { sig with givens })).Faultless :=
    (@faultless_function { sig with givens }).mpr ⟨hret, hparams, hall⟩
  exact hfull.rename ρ

end Publish

/-- A group that is checked without an error leaves no error type behind. -/
theorem Checks.errorFree (h : Checks config group s s') (hs : s.Ready (group :: gs))
    (hfree : s.ErrorFree) (hclean : s'.Clean) : s'.ErrorFree := by
  have hle := h.store.1.le
  have hwaits := hs.waits group List.mem_cons_self
  have hclean₀ : s.Clean := Nat.le_zero.mp (h.errors.trans_eq hclean)
  cases h.ended with
  | failed herrors _ _ =>
    rw [hclean] at herrors
    exact absurd herrors (Nat.not_lt_zero _)
  | @published total last retained hpub =>
    obtain ⟨htotal, hlast, hmembers⟩ :=
      hpub.found_faultless hle hwaits hfree hs.registered hclean₀
    refine ⟨fun {name g} hg => ?_, fun {id ty} hty => ?_⟩
    · by_cases hname : name ∈ group.map FunctionDecl.name
      · obtain ⟨f, hf, rfl⟩ := List.mem_map.mp hname
        rw [← hwaits.map_members] at hf
        obtain ⟨m, hm, rfl⟩ := List.mem_map.mp hf
        obtain ⟨ty, hty, hlt, hform⟩ := hpub.general m hm
        obtain ⟨ty', -, hglobal, hfunction⟩ := h.functions.finished m.1.name hname
        obtain rfl := Option.some.inj (hty.symm.trans hfunction)
        obtain rfl := Option.some.inj (hglobal.symm.trans hg)
        exact ⟨hlt, faultless_of_isGeneralForm hform (hmembers m hm) hpub.faultless⟩
      · rw [(h.functions.others name hname).1] at hg
        exact (hfree.global hg).of_le hle
    · by_cases hid : id ∈ bodyExprs group
      · obtain ⟨t, ty', ht, hty', hlt, htree⟩ := hpub.recorded id hid
        obtain rfl := Option.some.inj (hty'.symm.trans hty)
        exact ⟨hlt, by rw [htree]; exact inherited_faultless.applyAll (htotal.records _ ht) hlast⟩
      · rw [hpub.others id hid] at hty
        exact (hfree.exprType hty).of_le hle

/-- A run that ends without an error has left no error type behind. -/
theorem Runs.errorFree (h : Runs config s gs s') (hfree : s.ErrorFree) (hclean : s'.Clean) :
    s'.ErrorFree := by
  induction h with
  | nil => exact hfree
  | cons hready hchecks hrest ih =>
    have hclean₁ := Nat.le_zero.mp (hrest.errors.trans_eq hclean)
    exact ih (hchecks.errorFree hready hfree hclean₁) hclean

end CheckState

namespace Store

variable {st : Store} {ty : TypeId}

theorem Whole.hasError (h : st.Whole ty) : st.hasError ty = false :=
  (hasError_eq_false_iff h.1).mpr h.2

theorem Faultless.hasError_of_productBody? {body : ProductBody} (h : st.Faultless)
    (hbody : st.productBody? ty = some body) :
    ∀ part ∈ body.fields ++ body.parent.toList, st.hasError part = false := fun part hpart =>
  (h ty (.product body) (productBody?_eq_some.mp hbody) part hpart).hasError

theorem Faultless.hasError_of_sumTags? {tags : List TypeId} (h : st.Faultless)
    (htags : st.sumTags? ty = some tags) : ∀ tag ∈ tags, st.hasError tag = false := fun tag htag =>
  (h ty (.sum tags) (sumTags?_eq_some.mp htags) tag htag).hasError

end Store

namespace Module

open CheckState

variable (m : Module) (config : CheckConfig) (log : DiagnosticLog)

/-- Before bodies are checked, functions have the types that are written of them. -/
theorem errorFree_prepared (hclean : (m.prepared config log).Clean) :
    (m.prepared config log).ErrorFree := by
  have hcollected := m.collected_prepared config log
  refine ⟨fun hg => ?_, fun hty => ?_⟩
  · obtain ⟨f, -, -, hsig⟩ := hcollected.global hg
    exact hsig.sound.2 hclean
  · rw [hcollected.exprTypes] at hty
    simp at hty

/-- When a check ends without an error, the checked state is without the error type. -/
theorem errorFree_checked (h : (m.check config log).errorCount = 0) :
    (m.checked config log).ErrorFree := by
  obtain ⟨hruns, hclean⟩ := m.runs_of_clean config log h
  exact hruns.errorFree (m.errorFree_prepared config log
    (Nat.le_zero.mp (hruns.errors.trans_eq hclean))) hclean

theorem whole_exprType (h : (m.check config log).errorCount = 0) {id : ExprId} {ty : TypeId}
    (hty : (m.check config log).exprTypes[id]? = some ty) : (m.check config log).store.Whole ty := by
  have hends := m.store_check config log (m.runs_of_clean config log h).1.ready
  rw [(m.shows_check config log).exprTypes] at hty
  exact ((m.errorFree_checked config log h).exprType hty).of_le hends.1.le

/-- When a check ends without an error, the error type is in no type of a function, in no type of an
expression, and in no field, parent or tag of the body of any type, be it declared or an instance. -/
theorem check_errorFree (h : (m.check config log).errorCount = 0) :
    let final := m.check config log
    (∀ (name : Name) (ty : TypeId), final.functions[name]? = some ty →
      final.store.hasError ty = false) ∧
    (∀ (id : ExprId) (ty : TypeId), final.exprTypes[id]? = some ty →
      final.store.hasError ty = false) ∧
    (∀ (ty : TypeId) (body : ProductBody), final.store.productBody? ty = some body →
      ∀ part ∈ body.fields ++ body.parent.toList, final.store.hasError part = false) ∧
    ∀ (ty : TypeId) (tags : List TypeId), final.store.sumTags? ty = some tags →
      ∀ tag ∈ tags, final.store.hasError tag = false := by
  intro final
  obtain ⟨hruns, hclean⟩ := m.runs_of_clean config log h
  have hshows := m.shows_check config log
  have hready := hruns.ready
  have hends := m.store_check config log hready
  have hfree := m.errorFree_checked config log h
  have hbodies : final.store.Faultless := hends.1.faultless (hready.registered.faultless hclean)
  refine ⟨fun name ty hty => ?_, fun id ty hty => (m.whole_exprType config log h hty).hasError,
    fun ty body hbody => hbodies.hasError_of_productBody? hbody,
    fun ty tags htags => hbodies.hasError_of_sumTags? htags⟩
  rw [hshows.functions, hready.functions] at hty
  obtain ⟨g, hg, rfl⟩ := Option.map_eq_some_iff.mp hty
  exact ((hfree.global (Option.filter_eq_some_iff.mp hg).1).of_le hends.1.le).hasError

theorem check_errorFree_chooseModule :
    let final := chooseModule.check {} {}
    final.errorCount = 0 ∧ ∃ ty, final.functions["choose"]? = some ty ∧
      final.store.hasError ty = false := by
  have h := errorCount_check_chooseModule
  obtain ⟨hruns, -⟩ := chooseModule.runs_of_clean {} {} h
  have hmem : chooseFn ∈ chooseModule.groups.flatten := by simp [groups_chooseModule]
  obtain ⟨ty, -, hty⟩ := hruns.finished (List.mem_map_of_mem hmem)
  rw [← (chooseModule.shows_check {} {}).functions] at hty
  exact ⟨h, ty, hty, (chooseModule.check_errorFree {} {} h).1 _ ty hty⟩

end Module

end ConstraintTyping
