import ConstraintTyping.Proofs.Check.Insertion
import ConstraintTyping.Proofs.Renaming.Outcomes

/-!
# Functions do not depend on what they do not refer to

A module gets one more function, which no other refers to.  Its signature uses up numbers of types and
of fresh variables, so that the functions after it get other ones; its group has its turn somewhere
between the others.  From the new function on, the two checks go in lockstep under the renaming that
takes the fresh variables of the one to those of the other.  So the others get the same types, as they
are printed, and what is reported is what was reported before and what is reported for the new function.
-/

namespace ConstraintTyping

open Store CheckM CheckState Renaming

namespace SignaturePair

variable {P : SignaturePair} {s s₀ s' : CheckState} {done : List FunctionDecl}

/-- A state beside one that goes on from it: what a name stands for is as it was. -/
theorem inCollect_of_goesOn (h₀ : s₀.Registered) (hs : s₀.GoesOn s) (hs' : s.GoesOn s')
    (hdone : s.Collected done) (hbase : P.base = s₀.store) (hlogs : P.logs = (s.log, s'.log))
    (hlock : P.R.Lockstep (s.store, s'.store))
    (hkeep : ∀ name ty, ty < s.store.size → (P.of name).Alike (s.store, s'.store) ty ty)
    (hglobals : ∀ name ∈ P.names, s'.globals[name]? = s.globals[name]?) :
    P.InCollect (s.store, s'.store) s s' where
  stores := ⟨⟨rfl, rfl, hlock⟩, by rw [hbase]; exact Module.branches_of_goesOn h₀ hs (hs.trans hs')⟩
  traits := hs'.traits
  globals name hname := by
    have hglobal := @hdone.global name
    rw [hglobals name hname]
    generalize s.globals[name]? = o at hglobal ⊢
    cases o with
    | none => exact .none
    | some g =>
      obtain ⟨f, -, -, hsig⟩ := hglobal rfl
      exact .some ⟨rfl, hkeep name g.ty hsig.sound.1⟩
  log := by rw [hlogs]; exact .start _ _

end SignaturePair

namespace Module

variable (m : Module) (config : CheckConfig) (log : DiagnosticLog) (p : Nat) (g : FunctionDecl)

/-! ## What is reported for one function -/

/-- What is reported while the signature at a position is collected. -/
def signatureReports (p : Nat) : List Diagnostic :=
  (m.collected config log (m.functions.take (p + 1))).log.since
    (m.collected config log (m.functions.take p)).log

/-- What is reported for the function at a position: for its signature, and while its group has its
turn. -/
def ownReports (p : Nat) : List Diagnostic :=
  m.signatureReports config log p ++
    (m.bodyGroups.filter (p ∈ ·)).flatMap (m.turnReports config log)

/-- A signature adds its reports to the log. -/
theorem entries_collectSignature {fs : List FunctionDecl} :
    (m.collected config log (fs ++ [g])).log.entries.toList =
      (m.collected config log fs).log.entries.toList ++
        (m.collected config log (fs ++ [g])).log.since (m.collected config log fs).log := by
  have hself : (SignaturePair.self (m.registered config log).store (m.collected config log fs).log).InCollect
      ((m.collected config log fs).store, (m.collected config log fs).store)
      (m.collected config log fs) (m.collected config log fs) :=
    SignaturePair.inCollect_of_goesOn (m.collected_registered config log).registered
      (m.goesOn_collected config log fs)
      ⟨⟨.refl _, (m.collected_collected config log fs).registered.coherent⟩, rfl⟩
      (m.collected_collected config log fs) rfl rfl (fun k => ⟨trivial, rfl⟩)
      (fun _ _ hty => alike_refl le_rfl le_rfl hty) fun _ _ => rfl
  obtain ⟨w, -, hin⟩ := SignaturePair.inCollect_collectSignature hself (f := g) (ρ := id) trivial
    fun _ n _ => ⟨trivial, rfl⟩
  rw [collected_append]
  exact hin.log.entries_left

/-! ## One more function -/

theorem store_collected_le (fs : List FunctionDecl) : (m.collected config log fs).store ≤
    (m.collected config log (fs ++ [g])).store := by
  rw [collected_append]
  exact (ends_collectSignature_goesOn g
    (m.collected_collected config log fs).registered).1.store.1.le

/-- The stores before and after the signature of the new function is collected. -/
def storesAt (fs : List FunctionDecl) : Stores :=
  ((m.collected config log fs).store, (m.collected config log (fs ++ [g])).store)

theorem le_storesAt (fs : List FunctionDecl) : ((m.collected config log fs).store,
    (m.collected config log fs).store) ≤ m.storesAt config log g fs :=
  ⟨le_rfl, m.store_collected_le config log g fs⟩

/-- The renaming from the new function on, when the signatures of `fs` come before. -/
def renamingAfter (fs : List FunctionDecl) : Renaming :=
  resume (suits_refl (m.registered config log).store) (m.le_storesAt config log g fs)

/-- The signatures after the new function beside themselves. -/
def pairAfter (fs : List FunctionDecl) : SignaturePair where
  R := m.renamingAfter config log g fs
  base := (m.registered config log).store
  of := fun _ => m.renamingAfter config log g fs
  names := { name | name ≠ g.name }
  logs := ((m.collected config log fs).log, (m.collected config log (fs ++ [g])).log)
  agrees := fun _ _ h => ⟨h, rfl⟩

theorem plain_renamingAfter (fs : List FunctionDecl) : (m.renamingAfter config log g fs).Plain :=
  plain_resume _ _ plain_refl

theorem lockstep_renamingAfter (fs : List FunctionDecl) :
    (m.renamingAfter config log g fs).Lockstep (m.storesAt config log g fs) :=
  lockstep_resume (suits_refl _) (m.le_storesAt config log g fs)

theorem named_renamingAfter (fs : List FunctionDecl) (name : Name) :
    .named name ∈ (m.renamingAfter config log g fs).dom ∧
      (m.renamingAfter config log g fs).name (.named name) = .named name :=
  named_resume (suits_refl _) (m.le_storesAt config log g fs) trivial

theorem suits_renamingAfter (fs : List FunctionDecl) :
    (m.renamingAfter config log g fs).Suits (m.registered config log).store :=
  suits_resume _ _ (m.goesOn_collected config log fs).store.1.le
    (m.goesOn_collected config log fs).store.1.le

theorem inCollect_pairAfter (fs : List FunctionDecl) :
    (m.pairAfter config log g fs).InCollect (m.storesAt config log g fs)
      (m.collected config log fs) (m.collected config log (fs ++ [g])) := by
  have hfs := m.collected_collected config log fs
  obtain ⟨hon, hothers⟩ := ends_collectSignature_goesOn g hfs.registered
  refine SignaturePair.inCollect_of_goesOn (m.collected_registered config log).registered
    (m.goesOn_collected config log fs) ?_ hfs rfl rfl
    (m.lockstep_renamingAfter config log g fs) (fun _ ty hty => ?_) ?_
  · rw [collected_append]
    exact hon
  · exact (alike_refl le_rfl le_rfl hty).resume (suits_refl (m.registered config log).store)
      (m.le_storesAt config log g fs)
  · rw [collected_append]
    exact hothers

theorem members_moved (G : List Nat) :
    (m.insertFunction p g).members (G.map (moved p)) = m.members G := by
  rw [members, List.filterMap_map]
  exact List.filterMap_congr fun i _ => getElem?_insertIdx_moved m.functions p g i

section Insert

variable {m p g} (hp : p ≤ m.functions.length) (h : m.Unrelated g)

include hp

theorem functions_insertFunction : (m.insertFunction p g).functions =
    (m.functions.take p ++ [g]) ++ m.functions.drop p := by
  rw [insertFunction, insertIdx_eq hp, List.append_assoc, List.singleton_append]

include h

/-- The signatures after the new function are collected in step. -/
theorem inCollect_prepared : ∃ w, (m.pairAfter config log g (m.functions.take p)).InCollect w
    (m.prepared config log) ((m.insertFunction p g).prepared config log) := by
  have hbeside : (m.pairAfter config log g (m.functions.take p)).Beside (m.functions.take p)
      (m.functions.drop p) (m.functions.drop p) :=
    ⟨rfl, fun j f hf => ⟨h.name_ne f (List.mem_of_mem_drop (List.mem_of_getElem? hf)), id,
      by rw [f.renameVars_id, hf], fun _ n _ => m.named_renamingAfter config log g _ n⟩⟩
  obtain ⟨w, -, hin⟩ := SignaturePair.inCollect_collectSignatures
    (m.inCollect_pairAfter config log g (m.functions.take p))
    (m.collected_collected config log _) hbeside
  refine ⟨w, ?_⟩
  rw [prepared_eq, prepared_eq, functions_insertFunction hp, collected_append]
  rw [← collected_append, List.take_append_drop] at hin
  exact hin

/-- The module and the one with one more function correspond, in the functions that they share. -/
theorem corresponds_insertFunction : (m.pairAfter config log g (m.functions.take p)).Corresponds
    m (m.insertFunction p g) config log (List.map (moved p)) := by
  obtain ⟨⟨_, _⟩, hin⟩ := inCollect_prepared config log hp h
  obtain rfl := hin.stores.left
  obtain rfl := hin.stores.right
  refine ⟨hin.stores.branches, hin.traits, ?_, fun _ => m.suits_renamingAfter config log g _,
    hin.globals, fun G hG => ⟨map_moved_mem_bodyGroups hp h hG, default, ?_⟩⟩
  · rw [prepared_eq, (m.goesOn_collected config log m.functions).traits]
    exact m.hasSchemes_registered config log
  · rw [members_moved]
    refine List.forall₂_same.mpr fun f hf => ?_
    obtain ⟨i, -, hi⟩ := defines_of_mem_members hG hf
    have hmem := List.mem_of_getElem? hi.at_index
    exact ⟨rfl, h.name_ne f hmem, fun n hn heq => h.not_referenced f hmem (heq ▸ hn), id,
      f.renameVars_id.symm, fun n _ => m.named_renamingAfter config log g _ n⟩

/-- The turn of a group reports what it reported before. -/
theorem turnReports_moved {G : List Nat} (hG : G ∈ m.bodyGroups) :
    (m.insertFunction p g).turnReports config log (G.map (moved p)) = m.turnReports config log G := by
  obtain ⟨R, hplain, hlog⟩ := ((corresponds_insertFunction config log hp h).turnsAlike hG).log
  exact hlog.since_eq (hplain fun _ _ => m.plain_renamingAfter config log g _)

/-- Before any body is checked, the reports are those from before, and those for the signature. -/
theorem perm_entries_prepared :
    ((m.insertFunction p g).prepared config log).log.entries.toList.Perm
      ((m.prepared config log).log.entries.toList ++
        (m.insertFunction p g).signatureReports config log p) := by
  obtain ⟨w, hin⟩ := inCollect_prepared config log hp h
  have htake : (m.insertFunction p g).functions.take p = m.functions.take p := by
    rw [functions_insertFunction hp, List.append_assoc,
      List.take_append_of_le_length (by simp [hp]), List.take_take, Nat.min_self]
  have htake' : (m.insertFunction p g).functions.take (p + 1) = m.functions.take p ++ [g] := by
    rw [functions_insertFunction hp, List.take_append_of_le_length (by simp [hp]),
      List.take_of_length_le (by simp [hp])]
  have hsignature : (m.insertFunction p g).signatureReports config log p =
      (m.collected config log (m.functions.take p ++ [g])).log.since
        (m.collected config log (m.functions.take p)).log := by
    rw [signatureReports, htake, htake']
    rfl
  have hafter := hin.log.since_eq plain_refl
  have hleft := hin.log.entries_left
  have hright := hin.log.entries_right
  dsimp only [pairAfter] at hafter hleft hright
  rw [hleft, hright, hafter, hsignature, entries_collectSignature, List.append_assoc,
    List.append_assoc]
  exact List.perm_append_comm.append_left _

/-- A function that no other refers to changes nothing for the others, when no error limit ends the
check: they have the same final types, as they are printed, and all that is reported besides what was
reported before is reported for the signature of the new function, or while its own body is checked. -/
theorem check_insertFunction (hlimit : config.errorLimit = 0) :
    (∀ f ∈ m.functions, ((m.insertFunction p g).check config log).functionText? f.name =
      (m.check config log).functionText? f.name) ∧
    (∀ G ∈ (m.insertFunction p g).bodyGroups, p ∈ G → G = [p]) ∧
    ((m.insertFunction p g).check config log).log.entries.toList.Perm
      ((m.check config log).log.entries.toList ++
        (m.insertFunction p g).ownReports config log p) := by
  have hcorr := corresponds_insertFunction config log hp h
  have hpre := wentThrough_of_no_limit (m := m) config log hlimit
  have hpre' := wentThrough_of_no_limit (m := m.insertFunction p g) config log hlimit
  -- a name is that of a member of a group, or the first function of that name has no body
  refine ⟨fun f hf => ?_, fun G hG hpG => eq_singleton_of_mem hp h hG hpG, ?_⟩
  · by_cases hdefined : ∃ G ∈ m.bodyGroups, ∃ f' ∈ m.members G, f'.name = f.name
    · obtain ⟨G, hG, f', hf', hname⟩ := hdefined
      rw [← hname]
      exact hcorr.functionText?_of_mem hpre hpre' hG (iff_of_true hG (hcorr.mem_turn hG)) hf'
    · have hnone : ∀ G ∈ m.bodyGroups, ∀ f' ∈ m.members G, f'.name ≠ f.name :=
        fun G hG f' hf' heq => hdefined ⟨G, hG, f', hf', heq⟩
      refine hcorr.functionText?_of_no_group hpre hpre' (h.name_ne f hf)
        (m.plain_renamingAfter config log g _) hnone fun G hG f' hf' => ?_
      obtain ⟨j, hj, hf'⟩ := defines_of_mem_members hG hf'
      rcases exists_moved_of_defines hp h hf' with ⟨-, rfl⟩ | ⟨i, rfl, hi⟩
      · exact (h.name_ne f hf).symm
      · obtain ⟨H, hH, hiH⟩ := List.mem_flatten.mp (mem_flatten_bodyGroups.mpr ⟨f', hi⟩)
        exact hnone H hH f' (mem_members_of_defines hiH hi)
  · rw [hpre.log_eq, hpre'.log_eq, entries_reached config log (List.append_nil _).symm,
      entries_reached config log (List.append_nil _).symm, ownReports]
    have hturns : ((m.insertFunction p g).bodyGroups.flatMap
        ((m.insertFunction p g).turnReports config log)).Perm
        (m.bodyGroups.flatMap (m.turnReports config log) ++
          ((m.insertFunction p g).bodyGroups.filter (p ∈ ·)).flatMap
            ((m.insertFunction p g).turnReports config log)) := by
      refine ((perm_bodyGroups hp h).flatMap_right _).trans (.of_eq ?_)
      rw [List.flatMap_append, List.flatMap_map]
      congr 1
      exact List.flatMap_congr fun G hG => turnReports_moved config log hp h hG
    -- signatures come before turns on both sides; the new reports are moved to the end
    refine ((perm_entries_prepared config log hp h).append hturns).trans ?_
    rw [List.append_assoc, List.append_assoc]
    refine List.Perm.append_left _ ?_
    rw [← List.append_assoc, ← List.append_assoc]
    exact List.perm_append_comm.append_right _

end Insert

/-- A function that calls one of two which call each other. -/
def echo : FunctionDecl := forwarder "echo" "ping" 6

theorem unrelated_echo : pingPong.Unrelated echo := ⟨by decide, by decide⟩

theorem check_insertFunction_echo :
    ({} : CheckConfig).errorLimit = 0 ∧ 1 ≤ pingPong.functions.length ∧ pingPong.Unrelated echo ∧
      (∀ f ∈ pingPong.functions,
        ((pingPong.insertFunction 1 echo).check {} {}).functionText? f.name =
          (pingPong.check {} {}).functionText? f.name) ∧
      (∀ G ∈ (pingPong.insertFunction 1 echo).bodyGroups, 1 ∈ G → G = [1]) ∧
      ((pingPong.insertFunction 1 echo).check {} {}).log.entries.toList.Perm
        ((pingPong.check {} {}).log.entries.toList ++
          (pingPong.insertFunction 1 echo).ownReports {} {} 1) :=
  ⟨rfl, by decide, unrelated_echo, check_insertFunction {} {} (by decide) unrelated_echo rfl⟩

end Module

end ConstraintTyping
