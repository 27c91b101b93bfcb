import ConstraintTyping.Proofs.Check.Groups
import ConstraintTyping.Proofs.Check.Schemes

/-!
# From the declarations to the bodies

Types, traits and implementations are registered before any function is looked at.  Then the signatures
of the functions are collected, one after the other.  Each adds types, and says what one more name stands
for; nothing else changes.
-/

namespace ConstraintTyping

open Store CheckState CheckM

namespace CheckState

variable {s s' s'' : CheckState} {name : Name}

/-- A state goes on to the next function. -/
structure GoesOn (s s' : CheckState) : Prop where
  store : DeclM.EndsWell s.store s'.store
  traits : s'.traits = s.traits

theorem GoesOn.trans (h : s.GoesOn s') (h' : s'.GoesOn s'') : s.GoesOn s'' :=
  ⟨⟨h.store.1.trans h'.store.1, h'.store.2⟩, h'.traits.trans h.traits⟩

end CheckState

namespace CheckM

variable {s : CheckState}

/-- A signature says what its own name stands for. -/
theorem ends_collectSignature_goesOn (f : FunctionDecl) (h : s.Registered) :
    Ends (collectSignature f) s fun _ s' =>
      s.GoesOn s' ∧ ∀ name ≠ f.name, s'.globals[name]? = s.globals[name]? := by
  refine ends_get_bind ?_
  split
  · refine (ends_report _ s).mono ?_
    rintro _ s' ⟨hsame, hstore, -⟩
    refine ⟨⟨?_, hsame.traits⟩, fun name _ => by rw [hsame.globals]⟩
    rw [hstore]
    exact ⟨.refl _, h.coherent⟩
  · refine (ends_signature f h).bind ?_
    rintro ty s₁ ⟨hadv, -⟩
    refine ends_modify ⟨⟨hadv.endsWell, hadv.traits⟩, fun name hname => ?_⟩
    change (s₁.globals.insert f.name _)[name]? = _
    rw [Std.HashMap.getElem?_insert, if_neg (by simpa using Ne.symm hname), hadv.globals]

theorem ends_collectSignatures_goesOn (fs : List FunctionDecl) {done : List FunctionDecl}
    (h : s.Collected done) : Ends (fs.forM collectSignature) s fun _ s' => s.GoesOn s' := by
  induction fs generalizing s done with
  | nil => exact ends_pure ⟨⟨.refl _, h.registered.coherent⟩, rfl⟩
  | cons f fs ih =>
    have hboth : Ends (collectSignature f) s fun _ s' =>
        s.GoesOn s' ∧ s'.Collected (done ++ [f]) :=
      ⟨(ends_collectSignature_goesOn f h.registered).1, ends_collectSignature f h⟩
    refine hboth.bind fun _ s₁ ⟨hon, h₁⟩ => ?_
    exact (ih h₁).mono fun _ s₂ hon' => hon.trans hon'

end CheckM

namespace Module

variable (m : Module) (config : CheckConfig) (log : DiagnosticLog)

/-- The state in which signatures begin to be collected. -/
def registered : CheckState := (registerAll m (start config log)).2

/-- The state after the signatures of some functions are collected. -/
def collected (fs : List FunctionDecl) : CheckState :=
  (fs.forM collectSignature (m.registered config log)).2

theorem prepared_eq : m.prepared config log = m.collected config log m.functions := rfl

theorem collected_append (fs gs : List FunctionDecl) :
    m.collected config log (fs ++ gs) =
      (gs.forM collectSignature (m.collected config log fs)).2 :=
  congrArg (fun act : CheckM Unit => (act (m.registered config log)).2) List.forM_append

theorem collected_registered : (m.registered config log).Collected [] := by
  have hinitial := TraitTable.initial_operators
  unfold registered start
  generalize TraitTable.operators Store.new = operators at hinitial
  exact ends_registerAll m hinitial.declaring hinitial.noMethods rfl rfl rfl

theorem hasSchemes_registered :
    (m.registered config log).traits.HasSchemes (m.registered config log).store := by
  have hinitial := TraitTable.initial_operators
  have hschemes := TraitTable.hasSchemes_operators
  unfold registered start
  generalize TraitTable.operators Store.new = operators at hinitial hschemes
  exact hasSchemes_register m hinitial.declaring hinitial.noMethods ⟨hschemes.methods, hschemes.impls⟩

theorem collected_collected (fs : List FunctionDecl) :
    (m.collected config log fs).Collected fs :=
  ends_collectSignatures fs (m.collected_registered config log)

theorem goesOn_collected (fs : List FunctionDecl) :
    (m.registered config log).GoesOn (m.collected config log fs) :=
  ends_collectSignatures_goesOn fs (m.collected_registered config log)

end Module

end ConstraintTyping
