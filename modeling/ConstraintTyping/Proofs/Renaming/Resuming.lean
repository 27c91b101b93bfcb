import ConstraintTyping.Proofs.Renaming.Walking

/-!
# Renamings that go on

Two stores hold types that are alike.  Both go on separately, so that they hand out different numbers
of fresh variables.  From then on they can be in lockstep again, under the renaming that goes on as
before for the variables that stood for each other, and takes the fresh variables that the one store
hands out next to those that the other hands out next.
-/

namespace ConstraintTyping

open Store StoreM TypeTree

namespace Renaming

variable {R : Renaming} {base : Store} {w₀ w w' : Stores} {a b : TypeId}

/-- A fresh variable of a store is none that it hands out next. -/
theorem lt_freshCount {st : Store} {n : Nat} (h : .fresh n ∈ st.vars) : n < st.table.freshCount := by
  obtain ⟨v, hv⟩ := h
  have hbound := freshBound_shape_le st v
  rw [hv] at hbound
  exact hbound

/-- A variable that stands for another one in two stores; a named one need not be there yet. -/
def Stands (R : Renaming) (w : Stores) (x : VarIdent) : Prop :=
  x ∈ R.dom ∧ ∀ n, x = .fresh n → x ∈ w.1.vars ∧ R.name x ∈ w.2.vars

/-- New names after the stores have gone on: as before for what stood for each other, and in lockstep
for what comes next. -/
def resumeName (R : Renaming) (w : Stores) : VarIdent → VarIdent
  | .named n => R.name (.named n)
  | .fresh n =>
    if n < w.1.table.freshCount then R.name (.fresh n)
    else .fresh (n - w.1.table.freshCount + w.2.table.freshCount)

theorem resumeName_old (hle : w₀ ≤ w) {x : VarIdent} (hx : R.Stands w₀ x) :
    R.resumeName w x = R.name x := by
  cases x with
  | named n => rfl
  | fresh n => exact if_pos (lt_freshCount (vars_subset_of_le hle.1 (hx.2 _ rfl).1))

theorem resumeName_new (R : Renaming) (w : Stores) (k : Nat) :
    R.resumeName w (.fresh (w.1.table.freshCount + k)) = .fresh (w.2.table.freshCount + k) := by
  refine (if_neg (by omega)).trans ?_
  rw [Nat.add_sub_cancel_left, Nat.add_comm]

/-- Nothing stood for a variable that is handed out next. -/
theorem Stands.name_ne (h : R.Suits base) (hle : w₀ ≤ w) {x : VarIdent} (hx : R.Stands w₀ x)
    (k : Nat) : R.name x ≠ .fresh (w.2.table.freshCount + k) := by
  intro heq
  cases x with
  | named n =>
    obtain ⟨m, hm⟩ := h.named hx.1
    cases hm.symm.trans heq
  | fresh n =>
    have := lt_freshCount (heq ▸ vars_subset_of_le hle.2 (hx.2 _ rfl).2)
    omega

/-- The renaming with which two stores go on. -/
def resume (h : R.Suits base) (hle : w₀ ≤ w) : Renaming where
  name := R.resumeName w
  dom := { x | R.Stands w₀ x ∨ ∃ k, x = .fresh (w.1.table.freshCount + k) }
  injOn := by
    -- old names stay apart, new ones count up together, and an old one is never among the new
    rintro x (hx | ⟨k, rfl⟩) y (hy | ⟨l, rfl⟩) heq
    · rw [resumeName_old hle hx, resumeName_old hle hy] at heq
      exact R.injOn hx.1 hy.1 heq
    · rw [resumeName_old hle hx, resumeName_new] at heq
      exact absurd heq (hx.name_ne h hle l)
    · rw [resumeName_new, resumeName_old hle hy] at heq
      exact absurd heq.symm (hy.name_ne h hle k)
    · rw [resumeName_new, resumeName_new] at heq
      rw [Nat.add_left_cancel (VarIdent.fresh.inj heq)]

section Resume

variable (h : R.Suits base) (hle : w₀ ≤ w)

theorem mem_dom_resume {x : VarIdent} (hx : R.Stands w₀ x) :
    x ∈ (resume h hle).dom ∧ (resume h hle).name x = R.name x :=
  ⟨.inl hx, resumeName_old hle hx⟩

theorem named_resume {n : Name} (hn : .named n ∈ R.dom) :
    .named n ∈ (resume h hle).dom ∧ (resume h hle).name (.named n) = R.name (.named n) :=
  mem_dom_resume h hle ⟨hn, fun _ => nofun⟩

theorem lockstep_resume : (resume h hle).Lockstep w :=
  fun k => ⟨.inr ⟨k, rfl⟩, resumeName_new R w k⟩

/-- What was alike is alike. -/
theorem Alike.resume (hab : R.Alike w₀ a b) : (resume h hle).Alike w a b := by
  refine Alike.of_le (hab.congr fun x hx => mem_dom_resume h hle ⟨hab.occurs x hx, fun _ _ =>
    ⟨mem_vars_of_occurs hx, ?_⟩⟩) hle
  have hx' : (w₀.2.tree b).Occurs (R.name x) := by
    rw [hab.tree, occurs_rename]
    exact ⟨x, hx, rfl⟩
  exact mem_vars_of_occurs hx'

theorem suits_resume (hbase : base ≤ w₀.1) (hbase' : base ≤ w₀.2) : (resume h hle).Suits base where
  named := by
    rintro n (hn | ⟨k, hk⟩)
    · exact h.named hn.1
    · cases hk
  fresh := by
    rintro n (hn | ⟨k, hk⟩)
    · obtain ⟨m, hm⟩ := h.fresh hn.1
      exact ⟨m, (mem_dom_resume h hle hn).2.trans hm⟩
    · rw [hk]
      exact ⟨_, resumeName_new R w k⟩
  old := by
    intro n hn
    obtain ⟨hmem, hname⟩ := h.old hn
    obtain ⟨hmem', hname'⟩ := mem_dom_resume h hle ⟨hmem, fun _ _ =>
      ⟨vars_subset_of_le hbase hn, by rw [hname]; exact vars_subset_of_le hbase' hn⟩⟩
    exact ⟨hmem', hname'.trans hname⟩
  field hd hbody f hf n hoccurs hparams := by
    obtain ⟨hmem, hname⟩ := h.field hd hbody f hf n hoccurs hparams
    obtain ⟨hmem', hname'⟩ := named_resume h hle hmem
    exact ⟨hmem', hname'.trans hname⟩

theorem plain_resume (hR : R.Plain) : (resume h hle).Plain where
  named := by
    rintro n (hn | ⟨k, hk⟩)
    · exact hR.named hn.1
    · cases hk
  fresh := by
    rintro n (hn | ⟨k, hk⟩)
    · obtain ⟨m, hm⟩ := hR.fresh hn.1
      exact ⟨m, (mem_dom_resume h hle hn).2.trans hm⟩
    · rw [hk]
      exact ⟨_, resumeName_new R w k⟩

end Resume

end Renaming

end ConstraintTyping
