import ConstraintTyping.Proofs.Renaming.Alike
import ConstraintTyping.Proofs.Types.Building

/-!
# Computations side by side

`Coupled` is the relational counterpart of a Hoare triple: two computations that start in related
states end in related states, with related results.  The states are related at an index that only
grows, here a pair of stores, and what is known of types stays true when it grows.

Two stores are in lockstep under a renaming when the fresh variables that the one will hand out next
stand for those that the other will hand out next.  From stores in lockstep, building types that are
alike gives types that are alike, and leaves the stores in lockstep.
-/

namespace ConstraintTyping

/-! ## The triple -/

section Coupled

variable {W σ τ α β γ δ : Type} [Preorder W] {S : W → σ → τ → Prop} {w : W} {x : StateM σ α}
  {y : StateM τ β} {Q : W → α → β → Prop}

/-- From states related in `w`, two computations end in states related in a later index, with results
related there. -/
def Coupled (S : W → σ → τ → Prop) (x : StateM σ α) (y : StateM τ β) (w : W)
    (Q : W → α → β → Prop) : Prop :=
  ∀ s t, S w s t → ∃ w', w ≤ w' ∧ S w' (x s).2 (y t).2 ∧ Q w' (x s).1 (y t).1

/-- A relation that stays true when the index grows. -/
def Stable (r : W → α → β → Prop) : Prop :=
  ∀ ⦃w w' : W⦄ ⦃a : α⦄ ⦃b : β⦄, w ≤ w' → r w a b → r w' a b

theorem Stable.forall₂ {r : W → α → β → Prop} (hr : Stable r) :
    Stable fun w (xs : List α) (ys : List β) => List.Forall₂ (r w) xs ys :=
  fun _ _ _ _ hle h => h.imp fun _ _ h => hr hle h

theorem coupled_pure {a : α} {b : β} (h : Q w a b) :
    Coupled S (pure a : StateM σ α) (pure b : StateM τ β) w Q :=
  fun _ _ hst => ⟨w, le_rfl, hst, h⟩

theorem Coupled.bind {f : α → StateM σ γ} {g : β → StateM τ δ} {P : W → γ → δ → Prop}
    (h : Coupled S x y w Q) (hf : ∀ w' a b, w ≤ w' → Q w' a b → Coupled S (f a) (g b) w' P) :
    Coupled S (x >>= f) (y >>= g) w P := by
  intro s t hst
  obtain ⟨w₁, hle₁, hst₁, hab⟩ := h s t hst
  obtain ⟨w₂, hle₂, hst₂, hcd⟩ := hf w₁ _ _ hle₁ hab _ _ hst₁
  exact ⟨w₂, le_trans hle₁ hle₂, hst₂, hcd⟩

theorem Coupled.mono {P : W → α → β → Prop} (h : Coupled S x y w Q)
    (hQ : ∀ w' a b, w ≤ w' → Q w' a b → P w' a b) : Coupled S x y w P := by
  intro s t hst
  obtain ⟨w', hle, hst', hab⟩ := h s t hst
  exact ⟨w', hle, hst', hQ w' _ _ hle hab⟩

theorem coupled_get_bind {f : σ → StateM σ γ} {g : τ → StateM τ δ} {P : W → γ → δ → Prop}
    (h : ∀ s t, S w s t → Coupled S (f s) (g t) w P) : Coupled S (get >>= f) (get >>= g) w P :=
  fun s t hst => h s t hst s t hst

theorem coupled_modify {f : σ → σ} {g : τ → τ} (h : ∀ s t, S w s t → S w (f s) (g t)) :
    Coupled S (modify f) (modify g) w fun _ _ _ => True :=
  fun s t hst => ⟨w, le_rfl, h s t hst, trivial⟩

theorem coupled_mapM {r : W → α → β → Prop} {q : W → γ → δ → Prop} {f : α → StateM σ γ}
    {g : β → StateM τ δ} (hr : Stable r) (hq : Stable q)
    (hf : ∀ w' a b, w ≤ w' → r w' a b → Coupled S (f a) (g b) w' q) {xs : List α} {ys : List β}
    (h : List.Forall₂ (r w) xs ys) :
    Coupled S (xs.mapM f) (ys.mapM g) w fun w' cs ds =>
      cs.length = xs.length ∧ List.Forall₂ (q w') cs ds := by
  induction xs generalizing ys w with
  | nil =>
    cases h
    exact coupled_pure ⟨rfl, .nil⟩
  | cons a xs ih =>
    cases h with
    | cons hab h =>
      rw [List.mapM_cons, List.mapM_cons]
      refine (hf w _ _ le_rfl hab).bind fun w₁ c d hle₁ hcd => ?_
      refine (ih (fun w' a b hle => hf w' a b (le_trans hle₁ hle)) (hr.forall₂ hle₁ h)).bind ?_
      rintro w₂ cs ds hle₂ ⟨hlen, hcs⟩
      exact coupled_pure ⟨congrArg (· + 1) hlen, .cons (hq hle₂ hcd) hcs⟩

theorem coupled_forM {r : W → α → β → Prop} {f : α → StateM σ PUnit} {g : β → StateM τ PUnit}
    (hr : Stable r)
    (hf : ∀ w' a b, w ≤ w' → r w' a b → Coupled S (f a) (g b) w' fun _ _ _ => True) {xs : List α}
    {ys : List β} (h : List.Forall₂ (r w) xs ys) :
    Coupled S (xs.forM f) (ys.forM g) w fun _ _ _ => True := by
  induction xs generalizing ys w with
  | nil =>
    cases h
    exact coupled_pure trivial
  | cons a xs ih =>
    cases h with
    | cons hab h =>
      refine (hf w _ _ le_rfl hab).bind fun w₁ _ _ hle₁ _ => ?_
      exact ih (fun w' a b hle => hf w' a b (le_trans hle₁ hle)) (hr.forall₂ hle₁ h)

/-- The same for computations that read a context. -/
theorem coupled_forM_read {C D : Type} {c : C} {d : D} {r : W → α → β → Prop}
    {f : α → ReaderT C (StateM σ) PUnit} {g : β → ReaderT D (StateM τ) PUnit} (hr : Stable r)
    (hf : ∀ w' a b, w ≤ w' → r w' a b → Coupled S (f a c) (g b d) w' fun _ _ _ => True)
    {xs : List α} {ys : List β} (h : List.Forall₂ (r w) xs ys) :
    Coupled S (xs.forM f c) (ys.forM g d) w fun _ _ _ => True := by
  induction xs generalizing ys w with
  | nil =>
    cases h
    exact coupled_pure trivial
  | cons a xs ih =>
    cases h with
    | @cons _ b _ ys hab h =>
      change Coupled S (f a c >>= fun _ => xs.forM f c) (g b d >>= fun _ => ys.forM g d) w _
      refine (hf w a b le_rfl hab).bind fun w₁ _ _ hle₁ _ => ?_
      exact ih (fun w' a b hle => hf w' a b (le_trans hle₁ hle)) (hr.forall₂ hle₁ h)

theorem coupled_foldlM {r : W → α → β → Prop} {q : W → γ → δ → Prop} {f : γ → α → StateM σ γ}
    {g : δ → β → StateM τ δ} (hr : Stable r)
    (hf : ∀ w' c d a b, w ≤ w' → q w' c d → r w' a b → Coupled S (f c a) (g d b) w' q) {xs : List α}
    {ys : List β} {c : γ} {d : δ} (hcd : q w c d) (h : List.Forall₂ (r w) xs ys) :
    Coupled S (xs.foldlM f c) (ys.foldlM g d) w q := by
  induction xs generalizing ys w c d with
  | nil =>
    cases h
    exact coupled_pure hcd
  | cons a xs ih =>
    cases h with
    | cons hab h =>
      rw [List.foldlM_cons, List.foldlM_cons]
      refine (hf w _ _ _ _ le_rfl hcd hab).bind fun w₁ c' d' hle₁ hcd' => ?_
      exact ih (fun w' c d a b hle => hf w' c d a b (le_trans hle₁ hle)) hcd' (hr.forall₂ hle₁ h)

end Coupled

/-! ## Computations that can fail -/

/-- Two outcomes are both errors or both results, and related. -/
inductive RelExcept {ε ε' α β : Type} (e : ε → ε' → Prop) (r : α → β → Prop) :
    Except ε α → Except ε' β → Prop
  | ok {a : α} {b : β} (h : r a b) : RelExcept e r (.ok a) (.ok b)
  | error {a : ε} {b : ε'} (h : e a b) : RelExcept e r (.error a) (.error b)

theorem RelExcept.exists_ok_iff {ε ε' α β : Type} {e : ε → ε' → Prop} {r : α → β → Prop}
    {x : Except ε α} {y : Except ε' β} (h : RelExcept e r x y) :
    (∃ a, x = .ok a) ↔ ∃ b, y = .ok b := by
  cases h <;> simp

theorem RelExcept.map {ε ε' α β γ δ : Type} {e : ε → ε' → Prop} {r : α → β → Prop}
    {q : γ → δ → Prop} {x : Except ε α} {y : Except ε' β} {f : α → γ} {g : β → δ}
    (h : RelExcept e r x y) (hf : ∀ a b, r a b → q (f a) (g b)) : RelExcept e q (x.map f) (y.map g) := by
  cases h with
  | ok h => exact .ok (hf _ _ h)
  | error h => exact .error h

section Except

variable {W σ τ ε ε' α β γ δ : Type} [Preorder W] {S : W → σ → τ → Prop} {w : W}
  {x : ExceptT ε (StateM σ) α} {y : ExceptT ε' (StateM τ) β} {e : W → ε → ε' → Prop}
  {r : W → α → β → Prop}

theorem coupled_pureExcept {a : α} {b : β} (h : r w a b) :
    Coupled S (pure a : ExceptT ε (StateM σ) α).run (pure b : ExceptT ε' (StateM τ) β).run w
      fun w' => RelExcept (e w') (r w') :=
  coupled_pure (.ok h)

/-- Both are refused, for related reasons. -/
theorem coupled_refuse {a : ε} {b : ε'} (h : e w a b) :
    Coupled S (throw a : ExceptT ε (StateM σ) α).run (throw b : ExceptT ε' (StateM τ) β).run w
      fun w' => RelExcept (e w') (r w') :=
  coupled_pure (.error h)

/-- Both are refused under conditions that agree, or both go on. -/
theorem coupled_refuse_bind {p q : Prop} [Decidable p] [Decidable q] {a : ε} {b : ε'}
    {f : PUnit → ExceptT ε (StateM σ) α} {g : PUnit → ExceptT ε' (StateM τ) β} (hpq : p ↔ q)
    (he : p → e w a b) (h : ¬ p → Coupled S (f ⟨⟩).run (g ⟨⟩).run w fun w' => RelExcept (e w') (r w')) :
    Coupled S (if p then throw a >>= f else f ⟨⟩).run (if q then throw b >>= g else g ⟨⟩).run w
      fun w' => RelExcept (e w') (r w') := by
  by_cases hp : p
  · rw [if_pos hp, if_pos (hpq.mp hp)]
    exact coupled_pure (.error (he hp))
  · rw [if_neg hp, if_neg fun hq => hp (hpq.mpr hq)]
    exact h hp

theorem coupled_throw (a : ε) :
    Coupled S (throw a : ExceptT ε (StateM σ) α).run (throw a : ExceptT ε (StateM τ) β).run w
      fun w' => RelExcept Eq (r w') :=
  coupled_refuse (e := fun _ => Eq) rfl

theorem Coupled.lift {x : StateM σ α} {y : StateM τ β} (h : Coupled S x y w r) :
    Coupled S (liftM x : ExceptT ε (StateM σ) α).run (liftM y : ExceptT ε' (StateM τ) β).run w
      fun w' => RelExcept (e w') (r w') := by
  intro s t hst
  obtain ⟨w', hle, hst', hab⟩ := h s t hst
  exact ⟨w', hle, hst', .ok hab⟩

/-- Two computations that fail with related errors, or go on from related results. -/
theorem Coupled.bindExcept {f : α → ExceptT ε (StateM σ) γ} {g : β → ExceptT ε' (StateM τ) δ}
    {q : W → γ → δ → Prop} (h : Coupled S x.run y.run w fun w' => RelExcept (e w') (r w'))
    (hf : ∀ w' a b, w ≤ w' → r w' a b →
      Coupled S (f a).run (g b).run w' fun w' => RelExcept (e w') (q w')) :
    Coupled S (x >>= f).run (y >>= g).run w fun w' => RelExcept (e w') (q w') := by
  rw [ExceptT.run_bind, ExceptT.run_bind]
  refine h.bind fun w' a b hle hab => ?_
  cases hab with
  | ok hab => exact hf w' _ _ hle hab
  | error he => exact coupled_pure (.error he)

theorem coupled_getExcept {f : σ → ExceptT ε (StateM σ) γ} {g : τ → ExceptT ε' (StateM τ) δ}
    {P : W → Except ε γ → Except ε' δ → Prop}
    (h : ∀ s t, S w s t → Coupled S (f s).run (g t).run w P) :
    Coupled S (get >>= f).run (get >>= g).run w P :=
  fun s t hst => h s t hst s t hst

theorem coupled_mapMExcept {q : W → γ → δ → Prop} {f : α → ExceptT ε (StateM σ) γ}
    {g : β → ExceptT ε' (StateM τ) δ} (hr : Stable r) (hq : Stable q)
    (hf : ∀ w' a b, w ≤ w' → r w' a b →
      Coupled S (f a).run (g b).run w' fun w' => RelExcept (e w') (q w'))
    {xs : List α} {ys : List β} (h : List.Forall₂ (r w) xs ys) :
    Coupled S (xs.mapM f).run (ys.mapM g).run w fun w' =>
      RelExcept (e w') (List.Forall₂ (q w')) := by
  induction xs generalizing ys w with
  | nil =>
    cases h
    exact coupled_pureExcept .nil
  | cons a xs ih =>
    cases h with
    | cons hab h =>
      rw [List.mapM_cons, List.mapM_cons]
      refine (hf w _ _ le_rfl hab).bindExcept fun w₁ c d hle₁ hcd => ?_
      refine (ih (fun w' a b hle => hf w' a b (le_trans hle₁ hle)) (hr.forall₂ hle₁ h)).bindExcept
        fun w₂ cs ds hle₂ hcs => ?_
      exact coupled_pureExcept (.cons (hq hle₂ hcd) hcs)

/-- What a round says of its elements holds of all elements after the loop. -/
theorem coupled_forMExcept {p : W → α → β → Prop} {f : α → ExceptT ε (StateM σ) PUnit}
    {g : β → ExceptT ε' (StateM τ) PUnit} (hr : Stable r) (hp : Stable p)
    (hf : ∀ w' a b, w ≤ w' → r w' a b →
      Coupled S (f a).run (g b).run w' fun w' => RelExcept (e w') fun _ _ => p w' a b)
    {xs : List α} {ys : List β} (h : List.Forall₂ (r w) xs ys) :
    Coupled S (xs.forM f).run (ys.forM g).run w fun w' =>
      RelExcept (e w') fun _ _ => List.Forall₂ (p w') xs ys := by
  induction xs generalizing ys w with
  | nil =>
    cases h
    exact coupled_pure (.ok .nil)
  | @cons a xs ih =>
    cases h with
    | @cons _ b _ ys hab h =>
      refine Coupled.bindExcept (r := fun w _ _ => p w a b) (hf w _ _ le_rfl hab)
        fun w₁ _ _ hle₁ hcd => ?_
      refine (ih (fun w' a b hle => hf w' a b (le_trans hle₁ hle)) (hr.forall₂ hle₁ h)).mono
        fun w₂ x y hle₂ hxy => ?_
      cases hxy with
      | ok hxs => exact .ok (.cons (hp hle₂ hcd) hxs)
      | error he => exact .error he

end Except

/-! ## Stores in lockstep -/

namespace StoreM

open Store

theorem freshBound_key (t : TypeTable) (s : Shape TypeId) : (t.key s).freshBound = s.freshBound := by
  unfold TypeTable.key
  split
  · rfl
  · cases s <;> rfl

/-- Only a fresh variable that is new moves the count of fresh variables. -/
theorem freshCount_intern_of_le {s : Shape TypeId} {st : Store}
    (hs : s.freshBound ≤ st.table.freshCount) :
    (intern s st).2.table.freshCount = st.table.freshCount := by
  rw [intern_eq]
  show (st.table.intern s).2.freshCount = _
  rcases st.table.intern_cases s with ⟨id, -, h⟩ | ⟨-, -, h⟩ | ⟨-, h⟩
  · rw [h]
  · rw [h, TypeData.freshCount_push, freshBound_key]
    exact Nat.max_eq_left hs
  · rw [h]

theorem freshCount_intern {s : Shape TypeId} (hs : s.freshBound = 0) (st : Store) :
    (intern s st).2.table.freshCount = st.table.freshCount :=
  freshCount_intern_of_le (by rw [hs]; exact Nat.zero_le _)

/-- No type of a store has a fresh variable beyond its count. -/
theorem freshBound_shape_le (st : Store) (ty : TypeId) :
    (st.shape ty).freshBound ≤ st.table.freshCount := by
  rcases Nat.lt_or_ge ty st.size with hlt | hge
  · obtain ⟨n, hn⟩ := exists_node hlt
    rw [shape_of_node hn]
    exact st.table.lawful.fresh_lt hn
  · rw [shape_of_ge hge]
    exact Nat.zero_le _

theorem freshCount_freshVar (st : Store) :
    (freshVar st).2.table.freshCount = st.table.freshCount + 1 := by
  show (st.table.intern (.var (.fresh st.table.freshCount))).2.freshCount = _
  rcases st.table.intern_cases (.var (.fresh st.table.freshCount)) with ⟨id, hid, -⟩ | ⟨-, -, h⟩ | ⟨h, -⟩
  · obtain ⟨n, hn, hns⟩ := st.table.lawful.find?_iff.mp hid
    have hbound := st.table.lawful.fresh_lt hn
    rw [hns, freshBound_key] at hbound
    exact absurd hbound (Nat.not_le.mpr (Nat.lt_succ_self _))
  · rw [h, TypeData.freshCount_push, freshBound_key]
    exact Nat.max_eq_right (Nat.le_succ _)
  · exact absurd (by simp [TypeTable.key, Shape.isQualified, Shape.map, Shape.children]) h

/-- A computation makes no fresh variable. -/
def MakesNoVar {α : Type} (act : StoreM α) : Prop :=
  ∀ st, (act st).2.table.freshCount = st.table.freshCount

section MakesNoVar

variable {α β : Type}

theorem makesNoVar_pure (a : α) : MakesNoVar (pure a) := fun _ => rfl

theorem MakesNoVar.bind {act : StoreM α} {f : α → StoreM β} (hact : act.MakesNoVar)
    (hf : ∀ a, (f a).MakesNoVar) : (act >>= f).MakesNoVar :=
  fun st => (hf _ _).trans (hact st)

theorem makesNoVar_get_bind {f : Store → StoreM β} (hf : ∀ st, (f st).MakesNoVar) :
    (get >>= f).MakesNoVar :=
  fun st => hf st st

theorem makesNoVar_ite {p : Prop} [Decidable p] {x y : StoreM α} (hx : x.MakesNoVar)
    (hy : y.MakesNoVar) : (if p then x else y).MakesNoVar := by
  split
  · exact hx
  · exact hy

theorem makesNoVar_mapM {f : α → StoreM β} {xs : List α} (hf : ∀ a ∈ xs, (f a).MakesNoVar) :
    (xs.mapM f).MakesNoVar := by
  induction xs with
  | nil => exact makesNoVar_pure []
  | cons x xs ih =>
    rw [List.mapM_cons]
    exact (hf x List.mem_cons_self).bind fun y =>
      (ih fun a ha => hf a (List.mem_cons_of_mem x ha)).bind fun ys => makesNoVar_pure (y :: ys)

theorem makesNoVar_foldlM {f : β → α → StoreM β} (hf : ∀ b a, (f b a).MakesNoVar) (xs : List α)
    (b : β) : (xs.foldlM f b).MakesNoVar := by
  induction xs generalizing b with
  | nil => exact makesNoVar_pure b
  | cons x xs ih =>
    rw [List.foldlM_cons]
    exact (hf b x).bind ih

theorem makesNoVar_intern {s : Shape TypeId} (hs : s.freshBound = 0) : (intern s).MakesNoVar :=
  freshCount_intern hs

theorem makesNoVar_qualify (q : Qualifier) (base : TypeId) : (qualify q base).MakesNoVar := by
  unfold qualify
  refine makesNoVar_get_bind fun st => makesNoVar_ite (makesNoVar_pure _)
    (makesNoVar_ite (makesNoVar_pure _) (makesNoVar_ite ?_ (makesNoVar_intern rfl)))
  exact (makesNoVar_foldlM (fun _ _ => makesNoVar_intern rfl) _ _).bind fun _ => makesNoVar_intern rfl

/-- A rebuilt shape is never a variable. -/
theorem freshBound_withChildren? {α β : Type} {s : Shape α} {parts : List β} {s' : Shape β}
    (h : s.withChildren? parts = some s') : s'.freshBound = 0 := by
  unfold Shape.withChildren? at h
  split at h <;> cases h <;> rfl

theorem makesNoVar_rebuild (ty : TypeId) (parts : List TypeId) : (rebuild ty parts).MakesNoVar := by
  unfold rebuild
  refine makesNoVar_get_bind fun st => ?_
  split
  · exact makesNoVar_pure _
  · exact makesNoVar_qualify _ _
  · exact makesNoVar_ite (makesNoVar_pure _) (makesNoVar_intern rfl)
  · next heq => exact makesNoVar_intern (freshBound_withChildren? heq)

theorem makesNoVar_mapVars (f : TypeId → TypeId) (ty : TypeId) : (mapVars f ty).MakesNoVar := by
  -- constituents come before the types that they are in
  induction ty using Nat.strongRecOn with
  | ind ty ih =>
    rw [mapVars_eq]
    refine makesNoVar_get_bind fun st => makesNoVar_ite
      (makesNoVar_ite (makesNoVar_pure _) ?_) (makesNoVar_pure _)
    refine (makesNoVar_mapM fun c hc => ih c (lt_of_mem_children hc)).bind fun mapped => ?_
    exact makesNoVar_ite (makesNoVar_pure _) (makesNoVar_rebuild _ _)

theorem makesNoVar_substituteAll (mapping : List (TypeId × TypeId)) (ty : TypeId) :
    (substituteAll mapping ty).MakesNoVar :=
  makesNoVar_ite (makesNoVar_pure _) (makesNoVar_mapVars _ _)

end MakesNoVar

end StoreM

namespace Renaming

open Store StoreM TypeTree

variable {R R' : Renaming} {w : Stores} {a b : TypeId} {as bs : List TypeId} {α β γ δ : Type}

/-- The fresh variables that two stores hand out next stand for each other. -/
def Lockstep (R : Renaming) (w : Stores) : Prop :=
  ∀ k, .fresh (w.1.table.freshCount + k) ∈ R.dom ∧
    R.name (.fresh (w.1.table.freshCount + k)) = .fresh (w.2.table.freshCount + k)

theorem Lockstep.of_count {w' : Stores} (h : R.Lockstep w)
    (h₁ : w'.1.table.freshCount = w.1.table.freshCount)
    (h₂ : w'.2.table.freshCount = w.2.table.freshCount) : R.Lockstep w' := by
  unfold Lockstep
  rw [h₁, h₂]
  exact h

/-- Two stores, in lockstep, are the states of two computations. -/
structure InStep (R : Renaming) (w : Stores) (s t : Store) : Prop where
  left : w.1 = s
  right : w.2 = t
  lockstep : R.Lockstep w

/-- Two computations on stores in lockstep have related results and end in lockstep. -/
abbrev Couples (R : Renaming) (x : StoreM α) (y : StoreM β) (w : Stores)
    (Q : Stores → α → β → Prop) : Prop :=
  Coupled R.InStep x y w Q

theorem stable_alike (R : Renaming) : Stable R.Alike := fun _ _ _ _ hle h => h.of_le hle

/-- A rule from what the two computations do on their own. -/
theorem couples_of_run {x : StoreM α} {y : StoreM β} {Q : Stores → α → β → Prop}
    (h : R.Lockstep w → w ≤ ((x w.1).2, (y w.2).2) ∧ R.Lockstep ((x w.1).2, (y w.2).2) ∧
      Q ((x w.1).2, (y w.2).2) (x w.1).1 (y w.2).1) : R.Couples x y w Q := by
  rintro _ _ ⟨rfl, rfl, hlock⟩
  obtain ⟨hle, hlock', hQ⟩ := h hlock
  exact ⟨_, hle, ⟨rfl, rfl, hlock'⟩, hQ⟩

/-- Beside what two computations do together, the results and the stores are theirs. -/
theorem Couples.and_run {x : StoreM α} {y : StoreM β} {Q : Stores → α → β → Prop}
    (h : R.Couples x y w Q) : R.Couples x y w fun w' a b =>
      Q w' a b ∧ w' = ((x w.1).2, (y w.2).2) ∧ a = (x w.1).1 ∧ b = (y w.2).1 := by
  rintro _ _ ⟨rfl, rfl, hlock⟩
  obtain ⟨w', hle, hin, hQ⟩ := h _ _ ⟨rfl, rfl, hlock⟩
  exact ⟨w', hle, hin, hQ, Prod.ext hin.left hin.right, rfl, rfl⟩

theorem couples_get_bind {f : Store → StoreM γ} {g : Store → StoreM δ} {P : Stores → γ → δ → Prop}
    (h : R.Couples (f w.1) (g w.2) w P) : R.Couples (get >>= f) (get >>= g) w P := by
  refine coupled_get_bind ?_
  rintro _ _ ⟨rfl, rfl, -⟩
  exact h

/-! ## Building types -/

theorem occurs_of_forall₂ {s : Shape TypeId} {t : Shape TypeId} {ρ : VarIdent → VarIdent}
    (h : Shape.Like ρ (R.Alike w) s t) (hv : s.isVar = false) {x : VarIdent}
    (hx : (TypeTree.mk (s.map w.1.tree)).Occurs x) : x ∈ R.dom := by
  rcases occurs_mk.mp hx with hx | ⟨c, hc, hx⟩
  · rw [Shape.varIdent?_map] at hx
    cases s <;> simp [Shape.isVar, Shape.varIdent?] at hv hx
  · rw [Shape.children_map] at hc
    obtain ⟨a, ha, rfl⟩ := List.mem_map.mp hc
    have hall : ∀ {xs ys : List TypeId}, List.Forall₂ (R.Alike w) xs ys → a ∈ xs → x ∈ R.dom := by
      intro xs ys h
      induction h with
      | nil => exact fun h => by cases h
      | cons h _ ih =>
        intro ha
        rcases List.mem_cons.mp ha with rfl | ha
        · exact h.occurs x hx
        · exact ih ha
    exact hall h.children ha

/-- Shapes that are alike, apart from variables and qualifiers, build types that are alike. -/
theorem couples_build {s t : Shape TypeId} (h : Shape.Like R'.name (R'.Alike w) s t)
    (hv : s.isVar = false) (hq : s.isQualified = false) :
    R.Couples (intern s) (intern t) w R'.Alike := by
  refine couples_of_run fun hlock => ?_
  have hs := AllAlike.left_lt h.children
  have ht := AllAlike.right_lt h.children
  have hq' := h.isQualified_eq.trans hq
  have hv' := h.isVar_eq.trans hv
  have hbound : ∀ s : Shape TypeId, s.isVar = false → s.freshBound = 0 := fun s hs => by
    cases s <;> first | rfl | cases hs
  obtain ⟨-, hlt, htree⟩ := @yields_build w.1 _ hq hs
  obtain ⟨-, hlt', htree'⟩ := @yields_build w.2 _ hq' ht
  refine ⟨⟨intern_le s w.1, intern_le t w.2⟩, hlock.of_count (freshCount_intern (hbound s hv) _)
    (freshCount_intern (hbound t hv') _), ⟨hlt, hlt', ?_, ?_, ?_⟩⟩
  · rw [qualifiers_of_not_qualified (isQualified_intern hq),
      qualifiers_of_not_qualified (isQualified_intern hq')]
  · dsimp only
    rw [htree, htree', rename_mk (by simpa using hv), Shape.map_map]
    refine congrArg TypeTree.mk (h.map_eq hv fun a b hab => ?_).symm
    exact hab.tree.symm
  · dsimp only
    rw [htree]
    exact fun x hx => occurs_of_forall₂ h hv hx

theorem couples_pointer (h : R'.Alike w a b) : R.Couples (pointer a) (pointer b) w R'.Alike :=
  couples_build (.pointer h) rfl rfl

theorem couples_array (h : R'.Alike w a b) (length : Option Nat) :
    R.Couples (array a length) (array b length) w R'.Alike :=
  couples_build (.array h length) rfl rfl

theorem couples_tuple (h : R'.AllAlike w as bs) : R.Couples (tuple as) (tuple bs) w R'.Alike := by
  unfold StoreM.tuple
  cases h with
  | nil => exact coupled_pure (R'.alike_prim w .unit)
  | cons h hs => exact couples_build (.tuple (.cons h hs)) rfl rfl

theorem couples_function {sig sig' : Signature TypeId} (h : R'.AlikeSig w sig sig') :
    R.Couples (function sig) (function sig') w R'.Alike := by
  obtain ⟨ret, params, givens, isMeta, isVariadic⟩ := sig
  obtain ⟨ret', params', givens', isMeta', isVariadic'⟩ := sig'
  obtain ⟨hret, hparams, hgivens, rfl, rfl⟩ := h
  exact couples_build (.function hret hparams hgivens _ _) rfl rfl

theorem couples_traitType (name : Name) (h : R'.Alike w a b) (hs : R'.AllAlike w as bs) :
    R.Couples (traitType name a as) (traitType name b bs) w R'.Alike :=
  couples_build (.trait name h hs) rfl rfl

/-- A variable and the one that it stands for. -/
theorem alike_var {x : VarIdent} {st st' : Store} {v v' : TypeId} (hv : st.shape v = .var x)
    (hv' : st'.shape v' = .var (R.name x)) (hx : x ∈ R.dom) : R.Alike (st, st') v v' where
  left_lt := lt_size_of_shape_var hv
  right_lt := lt_size_of_shape_var hv'
  qualifiers := by
    have hq : (st.shape v).isQualified = false := by rw [hv]; rfl
    have hq' : (st'.shape v').isQualified = false := by rw [hv']; rfl
    exact (qualifiers_of_not_qualified hq').trans (qualifiers_of_not_qualified hq).symm
  tree := by rw [tree_of_var hv, tree_of_var hv', rename_var]
  occurs y hy := by
    rw [tree_of_var hv, occurs_var] at hy
    exact hy ▸ hx

theorem couples_namedVar {name name' : Name} (hname : .named name ∈ R'.dom)
    (h : R'.name (.named name) = .named name') :
    R.Couples (namedVar name) (namedVar name') w R'.Alike := by
  refine couples_of_run fun hlock => ⟨⟨intern_le _ w.1, intern_le _ w.2⟩, hlock.of_count
    (freshCount_intern rfl _) (freshCount_intern rfl _), ?_⟩
  have hshape := (@intern_spec w.1 (.var (.named name)) (by simp [Shape.children])).2
  have hshape' := (@intern_spec w.2 (.var (.named name')) (by simp [Shape.children])).2
  exact alike_var hshape (by rw [h]; exact hshape') hname

/-- The next fresh variables stand for each other, also under another renaming that agrees on fresh
variables. -/
theorem couples_freshVar_agreeing (w : Stores) (h : ∀ n, .fresh n ∈ R.dom →
    .fresh n ∈ R'.dom ∧ R'.name (.fresh n) = R.name (.fresh n)) :
    R.Couples freshVar freshVar w R'.Alike := by
  refine couples_of_run fun hlock => ?_
  obtain ⟨hle, -, -, hshape⟩ := freshVar_new w.1
  obtain ⟨hle', -, -, hshape'⟩ := freshVar_new w.2
  obtain ⟨hmem, hname⟩ := h _ (hlock 0).1
  refine ⟨⟨hle, hle'⟩, fun k => ?_, alike_var hshape ?_ hmem⟩
  · dsimp only
    rw [freshCount_freshVar, freshCount_freshVar, Nat.add_assoc, Nat.add_assoc]
    exact hlock (1 + k)
  · rw [hshape']
    exact congrArg Shape.var (hname.trans (hlock 0).2).symm

theorem couples_freshVar (R : Renaming) (w : Stores) : R.Couples freshVar freshVar w R.Alike :=
  couples_freshVar_agreeing w fun _ hn => ⟨hn, rfl⟩

/-! ## Qualifying types -/

theorem couples_wrap (q : Qualifier) (h : R'.Alike w a b) : R.Couples (wrap q a) (wrap q b) w R'.Alike := by
  refine couples_of_run fun hlock => ⟨⟨intern_le _ w.1, intern_le _ w.2⟩, hlock.of_count
    (freshCount_intern rfl _) (freshCount_intern rfl _), ?_⟩
  obtain ⟨hshape, hlt, -⟩ := wrap_spec q h.left_lt
  obtain ⟨hshape', hlt', -⟩ := wrap_spec q h.right_lt
  have hbase : R'.Alike ((wrap q a w.1).2, (wrap q b w.2).2) a b :=
    h.of_le ⟨intern_le _ _, intern_le _ _⟩
  refine ⟨hlt, hlt', ?_, ?_, ?_⟩
  · rw [qualifiers_wrap h.left_lt, qualifiers_wrap h.right_lt, h.qualifiers]
  · dsimp only
    rw [tree_of_qualified hshape, tree_of_qualified hshape']
    exact hbase.tree
  · dsimp only
    rw [tree_of_qualified hshape]
    exact hbase.occurs

theorem couples_qualify (q : Qualifier) (h : R'.Alike w a b) :
    R.Couples (qualify q a) (qualify q b) w R'.Alike := by
  unfold qualify
  refine couples_get_bind ?_
  dsimp only
  rw [h.qualifiers]
  split
  · exact coupled_pure h
  split
  · exact coupled_pure h
  split
  · refine (coupled_foldlM (r := fun _ k k' => k = k') (q := R'.Alike) (fun _ _ _ _ _ h => h) ?_ h.bare
      (List.forall₂_same.mpr fun _ _ => rfl)).bind fun w' c d _ hcd => couples_wrap _ hcd
    rintro w' c d k _ - hcd rfl
    exact couples_wrap k hcd
  · exact couples_wrap q h

end Renaming

end ConstraintTyping
