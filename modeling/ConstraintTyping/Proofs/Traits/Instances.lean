import ConstraintTyping.Proofs.Check.Generalize
import ConstraintTyping.Proofs.Renaming.Resuming
import ConstraintTyping.Proofs.Solve.UnifyComplete

/-!
# Looking up an implementation

An obligation without variables is implemented exactly when it is an instance of the type of some
implementation.  A generic implementation is tried by unifying a copy of it with the obligation; the
copy has fresh variables and the obligation has none, so this is one-sided matching.  Which variables
an implementation was written with, in which order the implementations were added and what was looked
up before has no influence on the answer.
-/

namespace ConstraintTyping

open Store StoreM TypeTree

/-! ## Instances -/

namespace TypeTree

variable {t u : TypeTree} {σ : VarIdent → TypeTree} {ρ : VarIdent → VarIdent}

/-- Some replacement of the variables of a tree makes it another one. -/
def Instantiates (t u : TypeTree) : Prop := ∃ σ, t.subst σ = u

/-- A tree and its copy under other names for its variables have the same instances. -/
theorem instantiates_rename (h : Set.InjOn ρ { x | t.Occurs x }) :
    (t.rename ρ).Instantiates u ↔ t.Instantiates u := by
  constructor
  · rintro ⟨σ, hσ⟩
    rw [rename, subst_subst] at hσ
    exact ⟨_, hσ⟩
  · rintro ⟨σ, rfl⟩
    obtain ⟨φ, hφ⟩ := exists_subst_rename h
    exact ⟨fun y => (φ y).subst σ, by rw [← subst_subst, rename, hφ]⟩

/-- The only instance of a tree without variables is the tree itself. -/
theorem instantiates_iff_eq (h : ¬ t.Generic) : t.Instantiates u ↔ t = u := by
  have hself : ∀ σ, t.subst σ = t := fun σ => subst_eq_self fun x hx => absurd ⟨x, hx⟩ h
  exact ⟨fun ⟨σ, hσ⟩ => (hself σ).symm.trans hσ, fun heq => ⟨var, (hself var).trans heq⟩⟩

end TypeTree

namespace Store

variable {st : Store} {ty e o : TypeId}

/-- What stands in an instance in the place of a variable is a type of the store, if the instance
is. -/
theorem exists_tree_of_occurs {t : TypeTree} {σ : VarIdent → TypeTree} {x : VarIdent}
    (hty : ty < st.size) (h : t.subst σ = st.tree ty) (hx : t.Occurs x) :
    ∃ r < st.size, st.tree r = σ x := by
  induction t using induction generalizing ty with
  | step s ih =>
    by_cases hv : s.isVar = true
    · obtain ⟨y, rfl⟩ := Shape.isVar_iff.mp hv
      rw [occurs_var] at hx
      rw [subst_var, hx] at h
      exact ⟨ty, hty, h.symm⟩
    · have hv : s.isVar = false := by simpa using hv
      obtain ⟨c, hc, hxc⟩ := (occurs_mk.mp hx).resolve_left (by
        cases s <;> simp_all [Shape.isVar, Shape.varIdent?])
      rw [subst_mk hv, tree_eq_mk] at h
      have hchildren := congrArg Shape.children (TypeTree.mk.inj h)
      rw [Shape.children_map, Shape.children_map] at hchildren
      have hmem : c.subst σ ∈ (st.shape (st.bare ty)).children.map st.tree :=
        hchildren ▸ List.mem_map_of_mem hc
      obtain ⟨d, hd, hread⟩ := List.mem_map.mp hmem
      exact ih c hc (lt_size_of_mem_children (bare_lt_size hty) hd) hread.symm hxc

/-- An instance in the store is reached by replacing variables by types of the store. -/
theorem instantiates_iff_mapVars (he : e < st.size) (ho : o < st.size)
    (hv : st.isVar e = false) (hqe : (st.shape e).isQualified = false)
    (hqo : (st.shape o).isQualified = false) :
    (st.tree e).Instantiates (st.tree o) ↔
      ∃ f : TypeId → TypeId, (∀ v, st.isVar v = true → f v < st.size) ∧ (mapVars f e st).1 = o := by
  have hyields := fun (f : TypeId → TypeId) (hf : ∀ v, st.isVar v = true → f v < st.size) =>
    yields_mapVars (σ := st.readVars f) (fun v x _ hx =>
      ⟨hf v (by rw [isVar, hx]; rfl), (readVars_eq hx).symm⟩) he
  constructor
  · rintro ⟨σ, hσ⟩
    have hplace : ∀ v, st.isVar v = true → ∃ r < st.size, ∀ x, st.shape v = .var x →
        (st.tree e).Occurs x → st.tree r = σ x := by
      intro v hv
      by_cases hocc : ∃ x, st.shape v = .var x ∧ (st.tree e).Occurs x
      · obtain ⟨x, hx, hocc⟩ := hocc
        obtain ⟨r, hr, hread⟩ := exists_tree_of_occurs ho hσ hocc
        refine ⟨r, hr, fun y hy _ => ?_⟩
        rw [hread, Shape.var.inj (hx.symm.trans hy)]
      · exact ⟨v, lt_size_of_isVar hv, fun x hx hoccurs => absurd ⟨x, hx, hoccurs⟩ hocc⟩
    choose! f hf hread using hplace
    obtain ⟨hsteps, hlt, htree⟩ := hyields f hf
    refine ⟨f, hf, eq_of_tree_eq hlt (lt_size_of_le hsteps.le ho) (bare_of_not_qualified
      (isQualified_mapVars f he hv hqe)) ?_ ?_⟩
    · rw [bare_of_le hsteps.le ho, bare_of_not_qualified hqo]
    · rw [htree, tree_of_le hsteps.le ho, ← hσ]
      refine subst_congr fun x hx => ?_
      obtain ⟨v, hshape⟩ := exists_var_of_occurs hx
      rw [readVars_eq hshape, hread v (by rw [isVar, hshape]; rfl) x hshape hx]
  · rintro ⟨f, hf, hrun⟩
    obtain ⟨hsteps, -, htree⟩ := hyields f hf
    rw [hrun, tree_of_le hsteps.le ho] at htree
    exact ⟨_, htree.symm⟩

end Store

/-! ## One implementation -/

namespace StoreM

variable {st : Store} {e o : TypeId} {limit : Nat}

/-- A copy at fresh variables is the same type under other names. -/
theorem instantiates_instantiateFresh {u : TypeTree} (he : e < st.size) :
    ((instantiateFresh e st).2.tree (instantiateFresh e st).1).Instantiates u ↔
      (st.tree e).Instantiates u := by
  obtain ⟨ρ, hρ, htree⟩ := renames_instantiateFresh he
  rw [htree]
  exact instantiates_rename hρ.injOn

theorem plain_rename {t : TypeTree} (h : t.Plain) (ρ : VarIdent → VarIdent) : (t.rename ρ).Plain :=
  Everywhere.subst h fun _ _ => plain_mk.mpr ⟨trivial, by simp [Shape.children]⟩

/-- Bindings that unify a type with one that has no variables make the first an instance. -/
theorem instantiates_of_unify {s : Bindings} (he : e < st.size) (ho : o < st.size)
    (hplain : (st.tree e).Plain) (hplain' : (st.tree o).Plain) (hground : ¬ (st.tree o).Generic)
    (h : (unify limit e o st).1 = .ok s) : (st.tree e).Instantiates (st.tree o) := by
  have heq := unify_eq_of_plain hplain hplain' (unify_ok he ho h).2
  rw [applyAll_eq_subst, applyAll_eq_self fun x _ hx => hground ⟨x, hx⟩] at heq
  exact ⟨_, heq⟩

/-- Unifying an instance with what it is an instance of fails for want of steps alone. -/
theorem error_of_instantiates {f : UnifyFailure} (he : e < st.size) (ho : o < st.size)
    (hground : ¬ (st.tree o).Generic) (h : (st.tree e).Instantiates (st.tree o))
    (hf : (unify limit e o st).1 = .error f) : f.error = .stepLimit limit := by
  obtain ⟨σ, hσ⟩ := h
  refine error_of_subst_eq he ho (τ := σ) (hσ.trans ?_) hf
  exact (subst_eq_self fun x hx => absurd ⟨x, hx⟩ hground).symm

end StoreM

/-! ## A list of implementations -/

namespace TraitTable

variable {t : TraitTable} {st : Store} {o : TypeId} {limit : Nat} {impls : List ImplEntry}

/-- What a lookup does with the first of several implementations. -/
theorem coveredBy_cons (limit : Nat) (o : TypeId) (entry : ImplEntry) (rest : List ImplEntry)
    (st : Store) : coveredBy limit o (entry :: rest) st =
      if entry.ty = o then (true, st)
      else if st.isGeneric entry.ty then
        let copy := instantiateFresh entry.ty st
        let run := unify limit copy.1 o copy.2
        match run.1 with
        | .ok _ => (true, run.2)
        | .error _ => coveredBy limit o rest run.2
      else coveredBy limit o rest st := by
  rw [coveredBy]
  split
  · rfl
  · rw [StateM.bind_apply, StateM.get_apply]
    split
    · rw [StateM.bind_apply, StateM.bind_apply]
      dsimp only
      split <;> next h => rw [h]; try rfl
    · rfl

/-- In a lookup some unification runs out of steps. -/
def Exhausts (limit : Nat) (o : TypeId) : List ImplEntry → Store → Prop
  | [], _ => False
  | entry :: rest, st =>
    entry.ty ≠ o ∧
      if st.isGeneric entry.ty then
        let copy := instantiateFresh entry.ty st
        let run := unify limit copy.1 o copy.2
        match run.1 with
        | .ok _ => False
        | .error failure => failure.error = .stepLimit limit ∨ Exhausts limit o rest run.2
      else Exhausts limit o rest st

/-- A type that can be the type of an implementation, or be looked up: a trait type, free of the error
type, of variadic functions and of obligations of functions. -/
structure Eligible (st : Store) (ty : TypeId) : Prop where
  isTrait : st.kind ty = .trait
  plain : st.Plain ty

namespace Eligible

variable {st' : Store} {ty : TypeId}

theorem lt_size (h : Eligible st ty) : ty < st.size := (unqualified_of_trait h.isTrait).1

theorem not_qualified (h : Eligible st ty) : (st.shape ty).isQualified = false :=
  (unqualified_of_trait h.isTrait).2

theorem not_var (h : Eligible st ty) : st.isVar ty = false := by
  have hkind := h.isTrait
  unfold kind at hkind
  unfold Store.isVar
  cases hs : st.shape ty <;> rw [hs] at hkind <;> first | rfl | cases hkind

theorem of_le (h : Eligible st ty) (hle : st ≤ st') : Eligible st' ty where
  isTrait := (congrArg Shape.kind (shape_of_le hle h.lt_size)).trans h.isTrait
  plain := by
    rw [plain_iff, tree_of_le hle h.lt_size]
    exact plain_iff.mp h.plain

end Eligible

section Copies

variable {e : TypeId} (he : Eligible st e) (ho : Eligible st o) (hground : ¬ (st.tree o).Generic)

include he ho hground

/-- If a copy of an implementation unifies with the obligation, the obligation is an instance of it. -/
theorem instantiates_of_unify_copy {s : Bindings}
    (h : (unify limit (instantiateFresh e st).1 o (instantiateFresh e st).2).1 = .ok s) :
    (st.tree e).Instantiates (st.tree o) := by
  have hle := (builds_instantiateFresh e st).1
  have hlt := (yields_instantiateFresh he.lt_size).result.1
  obtain ⟨ρ, -, htree⟩ := renames_instantiateFresh he.lt_size
  have hiff := instantiates_instantiateFresh (u := st.tree o) he.lt_size
  have hplain := plain_rename (plain_iff.mp he.plain) ρ
  change _ = (st.tree e).rename ρ at htree
  rw [← htree] at hplain
  have ho' := ho.of_le hle
  have hotree := tree_of_le hle ho.lt_size
  rw [← hiff, ← hotree]
  exact instantiates_of_unify hlt ho'.lt_size hplain (plain_iff.mp ho'.plain) (by rwa [hotree]) h

/-- An obligation that is an instance of an implementation unifies with a copy of it, if there are
enough steps. -/
theorem error_of_instantiates_copy {f : UnifyFailure}
    (h : (st.tree e).Instantiates (st.tree o))
    (hf : (unify limit (instantiateFresh e st).1 o (instantiateFresh e st).2).1 = .error f) :
    f.error = .stepLimit limit := by
  have hle := (builds_instantiateFresh e st).1
  have hlt := (yields_instantiateFresh he.lt_size).result.1
  have hiff := instantiates_instantiateFresh (u := st.tree o) he.lt_size
  have hotree := tree_of_le hle ho.lt_size
  rw [← hiff, ← hotree] at h
  exact error_of_instantiates hlt (ho.of_le hle).lt_size (by rwa [hotree]) h hf

end Copies

/-- A lookup that does not run out of steps finds an implementation exactly when the obligation is an
instance of one. -/
theorem coveredBy_iff (himpls : ∀ e ∈ impls, Eligible st e.ty) (ho : Eligible st o)
    (hground : ¬ (st.tree o).Generic) (hbudget : ¬ Exhausts limit o impls st) :
    (coveredBy limit o impls st).1 = true ↔
      ∃ e ∈ impls, (st.tree e.ty).Instantiates (st.tree o) := by
  induction impls generalizing st with
  | nil => simp [coveredBy, StateM.pure_apply]
  | cons entry rest ih =>
    obtain ⟨hentry, hrest⟩ := List.forall_mem_cons.mp himpls
    -- the rest of the implementations, looked up in a later store
    have hlater : ∀ {st'}, st ≤ st' → ¬ Exhausts limit o rest st' →
        ((coveredBy limit o rest st').1 = true ↔
          ∃ e ∈ rest, (st.tree e.ty).Instantiates (st.tree o)) := by
      intro st' hle hbudget
      rw [ih (fun e he => (hrest e he).of_le hle) (ho.of_le hle)
        (by rwa [tree_of_le hle ho.lt_size]) hbudget, tree_of_le hle ho.lt_size]
      exact exists_congr fun e => and_congr_right fun he => by
        rw [tree_of_le hle (hrest e he).lt_size]
    rw [coveredBy_cons, List.exists_mem_cons_iff]
    rw [Exhausts, not_and] at hbudget
    by_cases hsame : entry.ty = o
    · rw [if_pos hsame]
      exact iff_of_true rfl (.inl ⟨var, by rw [hsame]; exact subst_eq_self fun _ _ => rfl⟩)
    have hbudget := hbudget hsame
    rw [if_neg hsame]
    by_cases hg : st.isGeneric entry.ty = true
    · rw [if_pos hg] at hbudget ⊢
      have hle := le_trans (builds_instantiateFresh entry.ty st).1
        (builds_unify limit (instantiateFresh entry.ty st).1 o (instantiateFresh entry.ty st).2).1
      dsimp only at hbudget ⊢
      cases hrun : (unify limit (instantiateFresh entry.ty st).1 o
          (instantiateFresh entry.ty st).2).1 with
      | ok s =>
        exact iff_of_true rfl (.inl (instantiates_of_unify_copy hentry ho hground hrun))
      | error f =>
        rw [hrun] at hbudget
        obtain ⟨hlimit, hbudget⟩ := not_or.mp hbudget
        rw [hlater hle hbudget, or_iff_right]
        exact fun hinst => hlimit (error_of_instantiates_copy hentry ho hground hinst hrun)
    · rw [if_neg hg] at hbudget ⊢
      rw [hlater le_rfl hbudget, or_iff_right]
      rw [isGeneric_iff hentry.lt_size] at hg
      rw [instantiates_iff_eq hg, tree_eq_iff hentry.lt_size ho.lt_size,
        bare_of_not_qualified hentry.not_qualified, bare_of_not_qualified ho.not_qualified]
      exact hsame

/-! ## A table of implementations -/

/-- An obligation that a table can decide: it is a trait type without variables, the implementations
are trait types filed under the names of their traits, all of them are free of the error type, of
variadic functions and of obligations of functions, and the step budget is enough. -/
structure Decides (t : TraitTable) (st : Store) (o : TypeId) : Prop where
  filed : ∀ e ∈ t.impls.toList, ∃ subject args, st.shape e.ty = .trait e.traitName subject args
  plain : ∀ e ∈ t.impls.toList, st.Plain e.ty
  obligation : Eligible st o
  concrete : st.isGeneric o = false
  budget : ∀ name subject args, st.shape o = .trait name subject args →
    ¬ Exhausts t.stepLimit o (t.implsOf name) st

namespace Decides

theorem eligible (h : t.Decides st o) : ∀ e ∈ t.impls.toList, Eligible st e.ty := by
  intro e he
  obtain ⟨subject, args, hshape⟩ := h.filed e he
  exact ⟨by rw [kind, hshape]; rfl, h.plain e he⟩

theorem not_generic (h : t.Decides st o) : ¬ (st.tree o).Generic := by
  rw [← isGeneric_iff h.obligation.lt_size, h.concrete]
  exact Bool.false_ne_true

/-- An obligation is implemented exactly when it is an instance of an implementation. -/
theorem isImplemented_iff (h : t.Decides st o) : (t.isImplemented o st).1 = true ↔
    ∃ e ∈ t.impls.toList, (st.tree e.ty).Instantiates (st.tree o) := by
  have hkind := h.obligation.isTrait
  obtain ⟨name, subject, args, hshape⟩ :
      ∃ name subject args, st.shape o = .trait name subject args := by
    unfold kind at hkind
    cases hs : st.shape o <;> rw [hs] at hkind <;> cases hkind
    exact ⟨_, _, _, rfl⟩
  have hrun : t.isImplemented o st = coveredBy t.stepLimit o (t.implsOf name) st := by
    unfold isImplemented
    rw [StateM.bind_apply, StateM.get_apply, hshape]
  have hmem : ∀ e, e ∈ t.implsOf name ↔ e ∈ t.impls.toList ∧ e.traitName = name := fun e => by
    simp [implsOf]
  rw [hrun, coveredBy_iff (fun e he => h.eligible e ((hmem e).mp he).1) h.obligation h.not_generic
    (h.budget name subject args hshape)]
  -- an instance of a trait type is a type of the same trait
  refine ⟨fun ⟨e, he, hinst⟩ => ⟨e, ((hmem e).mp he).1, hinst⟩, fun ⟨e, he, σ, hσ⟩ =>
    ⟨e, (hmem e).mpr ⟨he, ?_⟩, σ, hσ⟩⟩
  obtain ⟨subject', args', hshape'⟩ := h.filed e he
  rw [tree_of_not_qualified (by rw [hshape']; rfl), tree_of_not_qualified (by rw [hshape]; rfl),
    hshape', hshape, subst_mk rfl] at hσ
  exact (Shape.trait.inj (TypeTree.mk.inj hσ)).1

end Decides

/-- Every implementation of one table is, up to the names of its variables, one of the other. -/
def Covers (t : TraitTable) (st : Store) (t' : TraitTable) (st' : Store) : Prop :=
  ∀ e ∈ t.impls.toList, ∃ e' ∈ t'.impls.toList, ∃ ρ : VarIdent → VarIdent,
    Set.InjOn ρ { x | (st.tree e.ty).Occurs x } ∧ st'.tree e'.ty = (st.tree e.ty).rename ρ

theorem Covers.instantiates {t' : TraitTable} {st' : Store} {u : TypeTree}
    (h : t.Covers st t' st') (hu : ∃ e ∈ t.impls.toList, (st.tree e.ty).Instantiates u) :
    ∃ e ∈ t'.impls.toList, (st'.tree e.ty).Instantiates u := by
  obtain ⟨e, he, hinst⟩ := hu
  obtain ⟨e', he', ρ, hρ, htree⟩ := h e he
  exact ⟨e', he', by rwa [htree, instantiates_rename hρ]⟩

/-- The store after some lookups. -/
def afterLookups (t : TraitTable) (os : List TypeId) (st : Store) : Store :=
  os.foldl (fun st o => (t.isImplemented o st).2) st

theorem le_afterLookups (t : TraitTable) (os : List TypeId) (st : Store) :
    st ≤ t.afterLookups os st := by
  induction os generalizing st with
  | nil => exact le_rfl
  | cons o os ih => exact le_trans (builds_isImplemented t o st).1 (ih _)

/-- A lookup that is made later has the same answer: the two stores are in lockstep under a renaming
that changes nothing in what they share. -/
theorem isImplemented_of_le {st' : Store} (himpls : ∀ e ∈ t.impls.toList, e.ty < st.size)
    (ho : o < st.size) (hg : st.isGeneric o = false) (hle : st ≤ st') :
    (t.isImplemented o st').1 = (t.isImplemented o st).1 := by
  have hsuits := Renaming.suits_refl st
  have hw : ((st, st) : Stores) ≤ (st, st') := ⟨le_rfl, hle⟩
  have hself : ∀ a < st.size, (Renaming.resume hsuits hw).Alike (st, st') a a := fun a ha =>
    Renaming.Alike.resume hsuits hw (Renaming.alike_refl le_rfl le_rfl ha)
  have hcouples := Renaming.couples_isImplemented (fun e he => (hself e.ty (himpls e he)).copied)
    (hself o ho) hg
  obtain ⟨-, -, -, heq⟩ := hcouples _ _ ⟨rfl, rfl, Renaming.lockstep_resume hsuits hw⟩
  exact heq.symm

/-- A table decides whether an obligation is an instance of an implementation: whether types of the
store, put in the place of the variables of some implementation, make it the obligation; types from
elsewhere would be of no more use.  So the answer does not depend on the order of the
implementations, on the names of their variables or on the store that holds them, nor on what was
looked up before. -/
theorem isImplemented_decides_instances (h : t.Decides st o) :
    ((t.isImplemented o st).1 = true ↔ ∃ e ∈ t.impls.toList, ∃ f : TypeId → TypeId,
      (∀ v, st.isVar v = true → f v < st.size) ∧ (mapVars f e.ty st).1 = o) ∧
    ((t.isImplemented o st).1 = true ↔
      ∃ e ∈ t.impls.toList, ∃ σ : VarIdent → TypeTree, (st.tree e.ty).subst σ = st.tree o) ∧
    (∀ (t' : TraitTable) (st' : Store) (o' : TypeId), t'.Decides st' o' → st'.tree o' = st.tree o →
      t.Covers st t' st' → t'.Covers st' t st →
      (t'.isImplemented o' st').1 = (t.isImplemented o st).1) ∧
    (∀ earlier : List TypeId,
      (t.isImplemented o (t.afterLookups earlier st)).1 = (t.isImplemented o st).1) := by
  refine ⟨h.isImplemented_iff.trans (exists_congr fun e => and_congr_right fun he => ?_),
    h.isImplemented_iff, fun t' st' o' h' htree hcovers hcovers' => ?_, fun earlier => ?_⟩
  · have hentry := h.eligible e he
    exact instantiates_iff_mapVars hentry.lt_size h.obligation.lt_size hentry.not_var
      hentry.not_qualified h.obligation.not_qualified
  · rw [Bool.eq_iff_iff, h'.isImplemented_iff, h.isImplemented_iff, htree]
    exact ⟨hcovers'.instantiates, hcovers.instantiates⟩
  · exact isImplemented_of_le (fun e he => (h.eligible e he).lt_size) h.obligation.lt_size h.concrete (t.le_afterLookups earlier st)

/-! ## An implementation for all types -/

/-- The trait type `Show subject`. -/
def showOf (subject : TypeTree) : TypeTree := .mk (.trait "Show" subject [])

theorem occurs_showOf {subject : TypeTree} {x : VarIdent} :
    (showOf subject).Occurs x ↔ subject.Occurs x := by
  simp [showOf, occurs_mk, Shape.children, Shape.varIdent?]

theorem generic_showOf {subject : TypeTree} : (showOf subject).Generic ↔ subject.Generic :=
  exists_congr fun _ => occurs_showOf

theorem not_generic_showOf (p : Prim) : ¬ (showOf (.prim p)).Generic := by
  rintro ⟨x, hx⟩
  simp [occurs_showOf, occurs_mk, Shape.children, Shape.varIdent?] at hx

theorem plain_showOf {subject : TypeTree} : (showOf subject).Plain ↔ subject.Plain := by
  simp [showOf, plain_mk, Shape.IsPlain, Shape.children]

theorem subst_showOf (σ : VarIdent → TypeTree) (subject : TypeTree) :
    (showOf subject).subst σ = showOf (subject.subst σ) := by
  rw [showOf, subst_mk rfl]
  rfl

/-- A store with the types `Show 'a` and `Show i32`. -/
theorem exists_showStore : ∃ (st : Store) (v c : TypeId), v < st.size ∧ c < st.size ∧
    (∃ subject, st.shape v = .trait "Show" subject []) ∧
    (∃ subject, st.shape c = .trait "Show" subject []) ∧
    st.tree v = showOf (var (.named "a")) ∧ st.tree c = showOf (.prim .i32) := by
  obtain ⟨st₁, x, -, hx, -, hxtree⟩ := exists_build .new (s := .var (.named "a")) rfl
    (by simp [Shape.children])
  obtain ⟨st₂, v, hle₂, hv, hvshape, hvtree⟩ := exists_build st₁ (s := .trait "Show" x []) rfl
    (by simpa [Shape.children] using hx)
  obtain ⟨st, c, hle, hc, hcshape, hctree⟩ := exists_build st₂ (s := .trait "Show" TypeId.i32 []) rfl
    (by simp [Shape.children, lt_size_of_prim])
  refine ⟨st, v, c, lt_size_of_le hle hv, hc, ⟨_, (shape_of_le hle hv).trans hvshape⟩, ⟨_, hcshape⟩,
    ?_, ?_⟩
  · rw [tree_of_le hle hv, hvtree, Shape.map, hxtree]
    rfl
  · rw [hctree, Shape.map, show st₂.tree TypeId.i32 = _ from tree_prim st₂ .i32]
    rfl

theorem unifyPairs_show (x : VarIdent) :
    TypeTree.unifyPairs 4 4 [(showOf (var x), showOf (.prim .i32))] [] = .ok [(x, .prim .i32)] := by
  have hgen : Generic (showOf (var x)) := generic_showOf.mpr ⟨x, occurs_var.mpr rfl⟩
  have h₁ : move (showOf (var x)) (showOf (.prim .i32)) = .ok (.split [(var x, .prim .i32)]) := by
    rw [showOf, showOf] at *
    simp [move, splitMove, hgen, Shape.varIdent?, Shape.SameHead, Shape.compared, Shape.children]
  have h₂ : move (var x) (.prim .i32) = .ok (.bind x (.prim .i32)) := by
    simp [move, Shape.varIdent?, bindMove, occurs_mk, Shape.children]
  simp only [TypeTree.unifyPairs, applyAll_nil, h₁, h₂, List.cons_append, List.nil_append]

/-- A copy of the implementation is `Show` of some variable, which takes two steps to unify. -/
theorem not_exhausts_show {e o : TypeId} {st : Store} (he : e < st.size) (ho : o < st.size)
    (hetree : st.tree e = showOf (var (.named "a"))) (hotree : st.tree o = showOf (.prim .i32)) :
    ¬ Exhausts 4 o [⟨"Show", e, Span.none⟩] st := by
  obtain ⟨ρ, -, hcopy⟩ := renames_instantiateFresh he
  have hlt := (yields_instantiateFresh he).result.1
  have hle := (builds_instantiateFresh e st).1
  obtain ⟨s, hrun⟩ : ∃ s, (unify 4 (instantiateFresh e st).1 o (instantiateFresh e st).2).1 =
      .ok s := exists_unify_ok hlt (lt_size_of_le hle ho) (by
    rw [hcopy, tree_of_le hle ho, hotree, hetree, subst_showOf, subst_var]
    exact unifyPairs_show _)
  have hgeneric : st.isGeneric e = true := by
    rw [isGeneric_iff he, hetree, generic_showOf]
    exact ⟨_, occurs_var.mpr rfl⟩
  rintro ⟨-, h⟩
  rw [if_pos hgeneric] at h
  dsimp only at h
  rwa [hrun] at h

/-- With an implementation of `Show 'a`, the obligation `Show i32` is met, now and after another
lookup. -/
theorem isImplemented_decides_instances_show :
    ∃ (t : TraitTable) (st : Store) (e o : TypeId), t.impls.toList.map (·.ty) = [e] ∧
      st.tree e = .mk (.trait "Show" (var (.named "a")) []) ∧
      st.tree o = .mk (.trait "Show" (.prim .i32) []) ∧ t.Decides st o ∧
      (t.isImplemented o st).1 = true ∧ (t.isImplemented o (t.afterLookups [e, o] st)).1 = true := by
  obtain ⟨st, e, o, he, ho, heshape, ⟨subject, hoshape⟩, hetree, hotree⟩ := exists_showStore
  let entry : ImplEntry := ⟨"Show", e, Span.none⟩
  let t : TraitTable := { impls := #[entry], stepLimit := 4 }
  have hvar : (var (.named "a")).Plain := by simp [plain_mk, Shape.IsPlain, Shape.children]
  have hprim : (TypeTree.prim .i32).Plain := by simp [plain_mk, Shape.IsPlain, Shape.children]
  have hdecides : t.Decides st o := by
    refine ⟨?_, ?_, ⟨by rw [kind, hoshape]; rfl, plain_iff.mpr ?_⟩, ?_, ?_⟩
    · obtain ⟨subject, heshape⟩ := heshape
      simpa [t, entry] using ⟨_, _, heshape⟩
    · have hplain : st.Plain e := plain_iff.mpr (hetree ▸ plain_showOf.mpr hvar)
      simpa [t, entry] using hplain
    · rw [hotree]
      exact plain_showOf.mpr hprim
    · rw [Bool.eq_false_iff, Ne, isGeneric_iff ho, hotree]
      exact not_generic_showOf _
    · intro name subject args hshape
      obtain rfl : "Show" = name := (Shape.trait.inj (hoshape.symm.trans hshape)).1
      exact not_exhausts_show he ho hetree hotree
  obtain ⟨-, hiff, -, hearlier⟩ := isImplemented_decides_instances hdecides
  have hinst : (st.tree entry.ty).subst (fun _ => .prim .i32) = st.tree o := by
    rw [hetree, hotree, subst_showOf, subst_var]
  have hfound : (t.isImplemented o st).1 = true := hiff.mpr ⟨entry, by simp [t], _, hinst⟩
  exact ⟨t, st, e, o, rfl, hetree, hotree, hdecides, hfound, (hearlier [e, o]).trans hfound⟩

end TraitTable

end ConstraintTyping
