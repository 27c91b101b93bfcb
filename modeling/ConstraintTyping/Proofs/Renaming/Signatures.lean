import ConstraintTyping.Check.Signatures
import ConstraintTyping.Proofs.Check.Signatures
import ConstraintTyping.Proofs.Renaming.Walking

/-!
# Signatures side by side

Two checks collect the signatures of functions that are the same but for the names of type variables.
The types that functions get on both sides are alike, each under a renaming of its own, which says
what the variables that are written in the function are called on the other side.  All these
renamings agree on fresh variables.
-/

namespace ConstraintTyping

open Store StoreM CheckM

/-- Two checks that collect signatures side by side. -/
structure SignaturePair where
  /-- What fresh variables stand for. -/
  R : Renaming
  base : Store
  /-- The renaming for the type of a function. -/
  of : Name → Renaming
  /-- The functions that are on both sides. -/
  names : Set Name
  logs : DiagnosticLog × DiagnosticLog
  agrees : ∀ (name : Name) (n : Nat), .fresh n ∈ R.dom →
    .fresh n ∈ (of name).dom ∧ (of name).name (.fresh n) = R.name (.fresh n)

theorem FunctionDecl.mem_walk (f : FunctionDecl) : .function f ∈ f.walk :=
  List.mem_append_left _ List.mem_cons_self

namespace Renaming

/-- A renaming goes with other names for the type variables that are written in a function. -/
def FollowsIn (R : Renaming) (ρ : Name → Name) (f : FunctionDecl) : Prop :=
  ∀ n ∈ f.typeVars, .named n ∈ R.dom ∧ R.name (.named n) = .named (ρ n)

variable {R : Renaming} {ρ : Name → Name} {f : FunctionDecl}

theorem FollowsIn.node (h : R.FollowsIn ρ f) {node : TreeNode} (hnode : node ∈ f.walk) :
    ∀ t ∈ node.written, R.Follows ρ t :=
  follows_list fun n hn => h n (List.mem_flatMap.mpr ⟨node, hnode, hn⟩)

theorem FollowsIn.param (h : R.FollowsIn ρ f) {p : Param} (hp : p ∈ f.params) :
    ∀ t ∈ p.written, R.Follows ρ t := fun t ht =>
  have hnode : .param p ∈ f.walk :=
    List.mem_append_left _ (List.mem_cons_of_mem _ (List.mem_map_of_mem hp))
  h.node hnode t (Option.mem_toList.mpr ht)

theorem FollowsIn.ret (h : R.FollowsIn ρ f) : ∀ t ∈ f.ret, R.Follows ρ t := fun t ht =>
  h.node f.mem_walk t (List.mem_append_left _ (Option.mem_toList.mpr ht))

theorem FollowsIn.given (h : R.FollowsIn ρ f) {bound : TraitRef} (hbound : bound ∈ f.given) :
    ∀ t ∈ bound.args, R.Follows ρ t := fun t ht =>
  h.node f.mem_walk t (List.mem_append_right _ (List.mem_flatMap.mpr ⟨bound, hbound, ht⟩))

end Renaming

namespace SignaturePair

open Renaming

variable (P : SignaturePair) {w w' : Stores} {α β γ δ : Type}

/-- A function on both sides. -/
structure AlikeProvisional (name : Name) (w : Stores) (g g' : GlobalFn) : Prop where
  finished : g'.finished = g.finished
  alike : (P.of name).Alike w g.ty g'.ty

/-- The states of two checks in step. -/
structure InCollect (w : Stores) (s s' : CheckState) : Prop where
  stores : P.R.InStepFrom P.base w s.store s'.store
  traits : s'.traits = s.traits
  globals : ∀ name ∈ P.names,
    Option.Rel (P.AlikeProvisional name w) s.globals[name]? s'.globals[name]?
  log : refl.AlikeLogs P.logs s.log s'.log

/-- Two checks go in step, and their results are related. -/
abbrev Collects (x : CheckM α) (y : CheckM β) (w : Stores) (Q : Stores → α → β → Prop) : Prop :=
  Coupled P.InCollect x y w Q

variable {P} {ρ : Name → Name} {name : Name}

theorem AlikeProvisional.of_le {g g' : GlobalFn} (h : P.AlikeProvisional name w g g')
    (hle : w ≤ w') : P.AlikeProvisional name w' g g' :=
  ⟨h.finished, h.alike.of_le hle⟩

/-! ## Written types -/

section Written

theorem collects_build {x : StoreM α} {y : StoreM β} {Q : Stores → α → β → Prop}
    (h : P.R.CouplesFrom P.base x y w Q) : P.Collects (CheckM.build x) (CheckM.build y) w Q := by
  intro s s' hs
  obtain ⟨w', hle, hst, hQ⟩ := h _ _ hs.stores
  exact ⟨w', hle, ⟨hst, hs.traits,
    fun name hname => rel_option_mono (hs.globals name hname) fun _ _ hg => hg.of_le hle, hs.log⟩, hQ⟩

theorem collects_report (f : TypeFault) :
    P.Collects (report f) (report f) w fun _ _ _ => True :=
  coupled_modify fun _ _ hs => ⟨hs.stores, hs.traits, hs.globals, hs.log.report (alikeFault_refl _ f)⟩

/-- A written type resolves on both sides, or the same fault is reported. -/
theorem collects_resolve {t : TypeExpr} (span : Span) (h : (P.of name).Follows ρ t) :
    P.Collects (resolve t span) (resolve (t.renameVars ρ) span) w (P.of name).Alike := by
  unfold resolve
  refine (collects_build (resolvesAlike P.R P.base span t h w)).bind fun w₁ r r' _ hr => ?_
  cases hr with
  | ok hty => exact coupled_pure hty
  | error he =>
    subst he
    exact (collects_report _).bind fun w₂ _ _ _ _ => coupled_pure ((P.of name).alike_prim w₂ .error)

theorem collects_resolveEach {ts : List TypeExpr} (span : Span)
    (h : ∀ t ∈ ts, (P.of name).Follows ρ t) :
    P.Collects (resolveEach ts span) (resolveEach (renameTypes ρ ts) span) w
      (P.of name).AllAlike := by
  rw [renameTypes_eq_map]
  refine (coupled_mapM (r := fun _ t t' => (P.of name).Follows ρ t ∧ t' = t.renameVars ρ)
    (fun _ _ _ _ _ h => h) (P.of name).stable_alike ?_ ?_).mono fun _ _ _ _ h => h.2
  · rintro w' t _ - ⟨ht, rfl⟩
    exact collects_resolve span ht
  · exact List.forall₂_map_right_iff.mpr (List.forall₂_same.mpr fun t ht => ⟨h t ht, rfl⟩)

/-- What is not written is a fresh variable on both sides. -/
theorem collects_resolveOrFresh (name : Name) {written : Option TypeExpr} (span : Span)
    (h : ∀ t ∈ written, (P.of name).Follows ρ t) :
    P.Collects (resolveOrFresh written span) (resolveOrFresh (written.map (TypeExpr.renameVars ρ)) span)
      w (P.of name).Alike := by
  cases written with
  | some t => exact collects_resolve span (h t rfl)
  | none =>
    exact collects_build ((couples_freshVar_agreeing w (P.agrees name)).from builds_freshVar
      builds_freshVar)

/-- An obligation, or the same refusal. -/
theorem couples_obligation {R R' : Renaming} {subject subject' : TypeId} {args args' : List TypeId}
    (t : TraitTable) (traitName : Name) (hsubject : R'.Alike w subject subject')
    (hargs : R'.AllAlike w args args') :
    R.Couples (t.obligation traitName subject args) (t.obligation traitName subject' args') w
      fun w' => RelExcept Eq (R'.Alike w') := by
  unfold TraitTable.obligation
  cases t.trait? traitName with
  | none => exact coupled_pure (.error rfl)
  | some entry =>
    dsimp only
    rw [hargs.length_eq]
    split
    · exact (couples_traitType traitName hsubject hargs).bind fun _ _ _ _ h => coupled_pure (.ok h)
    · exact coupled_pure (.error rfl)

theorem collects_resolveTraitRef {bound : TraitRef} (h : ∀ t ∈ bound.args, (P.of name).Follows ρ t) :
    P.Collects (resolveTraitRef (boundFault bound) bound)
      (resolveTraitRef (boundFault { bound with args := renameTypes ρ bound.args })
        { bound with args := renameTypes ρ bound.args }) w
      fun w' => Option.Rel ((P.of name).Alike w') := by
  unfold resolveTraitRef
  refine (collects_resolveEach bound.span h).bind fun w₁ as bs _ has => ?_
  cases has with
  | nil => exact (collects_report _).bind fun _ _ _ _ _ => coupled_pure .none
  | cons ha has =>
    refine coupled_get_bind fun s s' hs => ?_
    dsimp only
    rw [hs.traits]
    refine (collects_build ((couples_obligation s.traits bound.traitName ha has).from
      (TraitTable.builds_obligation _ _ _ _) (TraitTable.builds_obligation _ _ _ _))).bind
        fun w₂ r r' _ hr => ?_
    cases hr with
    | ok hty => exact coupled_pure (.some hty)
    | error he =>
      subst he
      exact (collects_report _).bind fun _ _ _ _ _ => coupled_pure .none

theorem forall₂_filterMap {r : α → β → Prop} {xs : List (Option α)} {ys : List (Option β)}
    (h : List.Forall₂ (Option.Rel r) xs ys) : List.Forall₂ r (xs.filterMap (·)) (ys.filterMap (·)) := by
  induction h with
  | nil => exact .nil
  | cons hxy _ ih =>
    cases hxy with
    | none => exact ih
    | some hxy => exact .cons hxy ih

end Written

/-! ## Signatures -/

/-- A function, and the same function with other names for its type variables, have types that are
alike. -/
theorem collects_signature {f : FunctionDecl} (h : (P.of name).FollowsIn ρ f) :
    P.Collects (signature f) (signature (f.renameVars ρ)) w (P.of name).Alike := by
  unfold signature
  refine Coupled.bind (coupled_mapM
    (r := fun _ (p q : Param) => (∀ t ∈ p.written, (P.of name).Follows ρ t) ∧ q = p.renameVars ρ)
    (fun _ _ _ _ _ h => h) (P.of name).stable_alike ?_ ?_) fun w₁ params params' _ ⟨_, hparams⟩ => ?_
  · rintro w' p _ - ⟨hp, rfl⟩
    exact collects_resolveOrFresh name p.span hp
  · exact List.forall₂_map_right_iff.mpr (List.forall₂_same.mpr fun p hp => ⟨h.param hp, rfl⟩)
  refine (collects_resolveOrFresh name f.span h.ret).bind fun w₂ ret ret' hle₂ hret => ?_
  refine Coupled.bind (coupled_mapM
    (r := fun _ (b b' : TraitRef) => (∀ t ∈ b.args, (P.of name).Follows ρ t) ∧
      b' = { b with args := renameTypes ρ b.args })
    (q := fun w => Option.Rel ((P.of name).Alike w)) (fun _ _ _ _ _ h => h)
    (fun _ _ _ _ hle h => rel_option_mono h fun _ _ h => h.of_le hle) ?_ ?_)
    fun w₃ givens givens' hle₃ ⟨_, hgivens⟩ => ?_
  · rintro w' b _ - ⟨hb, rfl⟩
    exact collects_resolveTraitRef hb
  · exact List.forall₂_map_right_iff.mpr (List.forall₂_same.mpr fun b hb => ⟨h.given hb, rfl⟩)
  have hsig : (P.of name).AlikeSig w₃
      { ret, params, givens := givens.filterMap (·), isMeta := f.isMeta, isVariadic := f.isVariadic }
      { ret := ret', params := params', givens := givens'.filterMap (·), isMeta := f.isMeta
        isVariadic := f.isVariadic } :=
    ⟨hret.of_le hle₃, AllAlike.of_le hparams (le_trans hle₂ hle₃), forall₂_filterMap hgivens, rfl, rfl⟩
  exact collects_build ((couples_function hsig).from (builds_intern _) (builds_intern _))

/-- The signature of a function is collected on both sides, unless its name is taken. -/
theorem inCollect_collectSignature {f : FunctionDecl} {s s' : CheckState} (hs : P.InCollect w s s')
    (hname : f.name ∈ P.names)
    (h : s.globals[f.name]? = none → (P.of f.name).FollowsIn ρ f) : ∃ w', w ≤ w' ∧
      P.InCollect w' (collectSignature f s).2 (collectSignature (f.renameVars ρ) s').2 := by
  have htaken : s'.globals.contains f.name = s.globals.contains f.name := by
    have hrel := hs.globals f.name hname
    rw [Std.HashMap.contains_eq_isSome_getElem?, Std.HashMap.contains_eq_isSome_getElem?]
    generalize s.globals[f.name]? = o at hrel
    generalize s'.globals[f.name]? = o' at hrel
    cases hrel <;> rfl
  unfold collectSignature
  rw [StateM.bind_apply, StateM.bind_apply, StateM.get_apply, StateM.get_apply]
  change ∃ w', w ≤ w' ∧ P.InCollect w' ((ite (s.globals.contains f.name = true) _ _ : CheckM Unit) s).2
    ((ite (s'.globals.contains f.name = true) _ _ : CheckM Unit) s').2
  rw [htaken]
  by_cases hcontains : s.globals.contains f.name = true
  · rw [if_pos hcontains, if_pos hcontains]
    obtain ⟨w', hle, hin, -⟩ := collects_report (w := w) (.duplicate "function" f.name f.span) s s' hs
    exact ⟨w', hle, hin⟩
  · rw [if_neg hcontains, if_neg hcontains]
    have hnone : s.globals[f.name]? = none := by
      rw [Std.HashMap.contains_eq_isSome_getElem?] at hcontains
      simpa using hcontains
    obtain ⟨w', hle, hin, hty⟩ := collects_signature (w := w) (h hnone) s s' hs
    refine ⟨w', hle, hin.stores, hin.traits, fun name hname' => ?_, hin.log⟩
    change Option.Rel _ ((signature f s).2.globals.insert _ _)[name]?
      ((signature (f.renameVars ρ) s').2.globals.insert f.name _)[name]?
    rw [Std.HashMap.getElem?_insert, Std.HashMap.getElem?_insert]
    split
    · next heq =>
      obtain rfl : f.name = name := by simpa using heq
      exact .some ⟨Option.isNone_map, hty⟩
    · exact hin.globals name hname'

/-- Functions beside the same with other names for their type variables, after `done`.  Only for the
first function of a name does it matter what the renaming says. -/
structure Beside (P : SignaturePair) (done fs fs' : List FunctionDecl) : Prop where
  length_eq : fs'.length = fs.length
  at_index : ∀ (j : Nat) (f : FunctionDecl), fs[j]? = some f → f.name ∈ P.names ∧
    ∃ ρ, fs'[j]? = some (f.renameVars ρ) ∧
      ((∀ g ∈ done ++ fs.take j, g.name ≠ f.name) → (P.of f.name).FollowsIn ρ f)

theorem Beside.uncons {fs fs' done : List FunctionDecl} {f : FunctionDecl}
    (h : P.Beside done (f :: fs) fs') : f.name ∈ P.names ∧ ∃ ρ fs'', fs' = f.renameVars ρ :: fs'' ∧
      ((∀ g ∈ done, g.name ≠ f.name) → (P.of f.name).FollowsIn ρ f) ∧
      P.Beside (done ++ [f]) fs fs'' := by
  obtain ⟨hname, ρ, hfirst, hfollows⟩ := h.at_index 0 f rfl
  cases fs' with
  | nil => cases hfirst
  | cons f' fs'' =>
    obtain rfl : f' = f.renameVars ρ := Option.some.inj hfirst
    refine ⟨hname, ρ, fs'', rfl, by simpa using hfollows, Nat.succ.inj h.length_eq, fun j g hg => ?_⟩
    obtain ⟨hname', ρ', hat, hfollows'⟩ := h.at_index (j + 1) g hg
    refine ⟨hname', ρ', hat, fun hnew => hfollows' ?_⟩
    rwa [List.take_succ_cons, ← List.singleton_append, ← List.append_assoc]

/-- Signatures are collected in step. -/
theorem inCollect_collectSignatures {fs fs' done : List FunctionDecl} {s s' : CheckState}
    (hs : P.InCollect w s s') (hdone : s.Collected done) (h : P.Beside done fs fs') :
    ∃ w', w ≤ w' ∧ P.InCollect w' (fs.forM collectSignature s).2 (fs'.forM collectSignature s').2 := by
  induction fs generalizing fs' done w s s' with
  | nil =>
    obtain rfl := List.length_eq_zero_iff.mp h.length_eq
    exact ⟨w, le_rfl, hs⟩
  | cons f fs ih =>
    obtain ⟨hname, ρ, fs', rfl, hfollows, hfs⟩ := h.uncons
    obtain ⟨w₁, hle₁, hs₁⟩ := inCollect_collectSignature hs hname (ρ := ρ) fun hnone =>
      hfollows fun g hg heq => by
        have hsome := hdone.covers g hg
        rw [heq, hnone] at hsome
        cases hsome
    have hdone₁ : (collectSignature f s).2.Collected (done ++ [f]) := ends_collectSignature f hdone
    obtain ⟨w₂, hle₂, hs₂⟩ := ih hs₁ hdone₁ hfs
    exact ⟨w₂, le_trans hle₁ hle₂, hs₂⟩

end SignaturePair

end ConstraintTyping
