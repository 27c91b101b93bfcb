import ConstraintTyping.Proofs.Types.Reading

/-!
# Replacing variables, read as trees

Building a type of a given shape yields the tree with that shape, and replacing the variables of a
type yields the tree in which they are replaced.  Qualifiers have no influence on either.
-/

namespace ConstraintTyping

namespace Shape

variable {α β γ : Type}

/-- New constituents that read as `g` of the old ones give a shape that reads as `g` of the old
shape; only a shape without constituents has no such form. -/
theorem withChildren?_map {f : β → γ} {g : α → γ} {s : Shape α} {parts : List β}
    (h : parts.map f = s.children.map g) :
    (s.withChildren? parts = none ∧ s.children = []) ∨
    ∃ s', s.withChildren? parts = some s' ∧ s'.map f = s.map g ∧ s'.children = parts ∧
      s'.isQualified = s.isQualified := by
  cases s with
  | prim p => exact Or.inl ⟨rfl, rfl⟩
  | var ident => exact Or.inl ⟨rfl, rfl⟩
  | tuple items => exact Or.inr ⟨.tuple parts, rfl, congrArg Shape.tuple h, rfl, rfl⟩
  | product name args =>
      exact Or.inr ⟨.product name parts, rfl, congrArg (Shape.product name) h, rfl, rfl⟩
  | sum name args => exact Or.inr ⟨.sum name parts, rfl, congrArg (Shape.sum name) h, rfl, rfl⟩
  | pointer target =>
      obtain ⟨p, rfl, hp⟩ : ∃ p, parts = [p] ∧ f p = g target := by
        simpa [children, List.map_eq_cons_iff] using h
      exact Or.inr ⟨.pointer p, rfl, congrArg Shape.pointer hp, rfl, rfl⟩
  | array elem length =>
      obtain ⟨p, rfl, hp⟩ : ∃ p, parts = [p] ∧ f p = g elem := by
        simpa [children, List.map_eq_cons_iff] using h
      exact Or.inr ⟨.array p length, rfl, by simp only [map, hp], rfl, rfl⟩
  | qualified qualifier base =>
      obtain ⟨p, rfl, hp⟩ : ∃ p, parts = [p] ∧ f p = g base := by
        simpa [children, List.map_eq_cons_iff] using h
      exact Or.inr ⟨.qualified qualifier p, rfl, by simp only [map, hp], rfl, rfl⟩
  | trait name subject args =>
      obtain ⟨p, ps, rfl, hp, hps⟩ := List.map_eq_cons_iff.mp h
      exact Or.inr ⟨.trait name p ps, rfl, by simp only [map, hp, hps], rfl, rfl⟩
  | function sig =>
      obtain ⟨p, ps, rfl, hp, hps⟩ := List.map_eq_cons_iff.mp h
      have hlen : (sig.params.map g).length = sig.params.length := List.length_map _
      rw [List.append_eq, List.map_append] at hps
      refine Or.inr ⟨_, rfl, ?_, ?_, rfl⟩
      · simp only [map, Signature.map, hp, Shape.function.injEq, Signature.mk.injEq, true_and,
          and_true]
        constructor
        · rw [List.map_take, hps, List.take_left' hlen]
        · rw [List.map_drop, hps, List.drop_left' hlen]
      · simp [children, Signature.children]

/-- The head of a shape: all of it but its constituents, of which the number is left. -/
def head (s : Shape α) : Shape Unit := s.map fun _ => ()

theorem head_map (f : α → β) (s : Shape α) : (s.map f).head = s.head := map_map ..

/-- New constituents, as many as there were, give a shape of the same head; only a shape without
constituents is given none. -/
theorem withChildren?_of_length {s : Shape α} {parts : List β}
    (h : parts.length = s.children.length) :
    (s.withChildren? parts = none ∧ s.children = []) ∨
    ∃ s', s.withChildren? parts = some s' ∧ s'.head = s.head ∧ s'.children = parts ∧
      s'.isQualified = s.isQualified :=
  withChildren?_map (f := fun _ => ()) (g := fun _ => ()) (by
    rw [List.map_const', List.map_const', h])

/-- The constituents of a rebuilt shape are among the new ones. -/
theorem mem_of_withChildren? {s : Shape α} {parts : List β} {s' : Shape β}
    (h : s.withChildren? parts = some s') : ∀ c ∈ s'.children, c ∈ parts := by
  intro c hc
  unfold withChildren? at h
  split at h
  case h_4 sig ret rest =>
    obtain rfl := Option.some.inj h
    rcases List.mem_cons.mp hc with rfl | hc
    · exact List.mem_cons_self
    · rcases List.mem_append.mp hc with hc | hc
      · exact List.mem_cons_of_mem _ (List.mem_of_mem_take hc)
      · exact List.mem_cons_of_mem _ (List.mem_of_mem_drop hc)
  case h_9 => cases h
  all_goals
    obtain rfl := Option.some.inj h
    simp_all [children]

end Shape

/-- A loop over the members of a list that makes no use of their being members. -/
theorem mapM_attach {m : Type → Type} [Monad m] [LawfulMonad m] {α β : Type} {xs : List α}
    {f : { x // x ∈ xs } → m β} {g : α → m β} (h : ∀ x, f x = g x.1) :
    xs.attach.mapM f = xs.mapM g := by
  have hval := List.mapM_map (l := xs.attach) (f := Subtype.val) (g := g)
  rw [List.attach_map_subtype_val] at hval
  rw [hval, funext h]
  rfl

/-- A loop whose steps leave the state as it is. -/
theorem mapM_eq_self {σ α β : Type} {f : α → StateM σ β} {g : α → β} {xs : List α} {s : σ}
    (h : ∀ x ∈ xs, f x s = (g x, s)) : xs.mapM f s = (xs.map g, s) := by
  induction xs with
  | nil => rfl
  | cons x xs ih =>
    rw [List.mapM_cons]
    simp only [StateM.bind_apply, StateM.pure_apply, List.map_cons]
    rw [h x List.mem_cons_self, ih fun y hy => h y (List.mem_cons_of_mem x hy)]

namespace StoreM

open Store

variable {st : Store} {ty : TypeId}

/-- A type built over types of the store reads as the shape over their trees. -/
theorem yields_build {s : Shape TypeId} (hq : s.isQualified = false)
    (hs : ∀ c ∈ s.children, c < st.size) :
    (intern s).Yields st fun ty st' => ty < st'.size ∧ st'.tree ty = .mk (s.map st.tree) := by
  refine (yields_intern hq hs).mono fun ty st' hsteps ⟨hlt, hshape⟩ => ⟨hlt, ?_⟩
  rw [tree_of_not_qualified (by rw [hshape, Shape.isQualified_map, hq]), hshape, Shape.map_map]
  refine congrArg TypeTree.mk (Shape.map_congr fun c hc => ?_)
  rw [Function.comp_apply, tree_of_le hsteps.le (bare_lt_size (hs c hc)), tree_bare]

/-- A store goes on to one that has a type of a shape over its types. -/
theorem exists_build (st : Store) {s : Shape TypeId} (hq : s.isQualified = false)
    (hs : ∀ c ∈ s.children, c < st.size) : ∃ (later : Store) (ty : TypeId), st ≤ later ∧
      ty < later.size ∧ later.shape ty = s.map st.bare ∧ later.tree ty = .mk (s.map st.tree) :=
  ⟨(intern s st).2, (intern s st).1, intern_le s st, (yields_intern hq hs).result.1,
    (yields_intern hq hs).result.2, (yields_build hq hs).result.2⟩

theorem yields_namedVar (name : Name) (st : Store) :
    (namedVar name).Yields st fun ty st' => ty < st'.size ∧ st'.tree ty = .var (.named name) :=
  yields_build rfl (by simp [Shape.children])

theorem shape_namedVar (name : Name) (st : Store) :
    (namedVar name st).2.shape (namedVar name st).1 = .var (.named name) :=
  (@yields_intern st (.var (.named name)) rfl (by simp [Shape.children])).result.2

theorem yields_pointer {target : TypeId} (h : target < st.size) :
    (pointer target).Yields st fun ty st' =>
      ty < st'.size ∧ st'.tree ty = .mk (.pointer (st.tree target)) :=
  yields_build rfl (by simpa [Shape.children] using h)

theorem yields_array {elem : TypeId} (length : Option Nat) (h : elem < st.size) :
    (array elem length).Yields st fun ty st' =>
      ty < st'.size ∧ st'.tree ty = .mk (.array (st.tree elem) length) :=
  yields_build rfl (by simpa [Shape.children] using h)

theorem yields_function {sig : Signature TypeId} (h : ∀ c ∈ sig.children, c < st.size) :
    (function sig).Yields st fun ty st' =>
      ty < st'.size ∧ st'.tree ty = .mk (.function (sig.map st.tree)) :=
  yields_build rfl h

theorem yields_tuple {items : List TypeId} (h : ∀ c ∈ items, c < st.size) :
    (tuple items).Yields st fun ty st' =>
      ty < st'.size ∧ st'.tree ty = .tuple (items.map st.tree) := by
  unfold tuple TypeTree.tuple
  by_cases he : items.isEmpty = true
  · rw [if_pos he]
    exact yields_pure ⟨lt_size_of_prim .unit, by simp_all⟩
  · rw [if_neg he]
    refine (yields_build (s := .tuple items) rfl h).mono fun ty st' _ hty => ⟨hty.1, ?_⟩
    rw [hty.2, if_neg (by simpa using he)]
    rfl

/-! ## New constituents -/

/-- A type rebuilt over constituents that read as `g` of its own. -/
theorem yields_rebuild {parts : List TypeId} {g : TypeId → TypeTree}
    (hq : (st.shape ty).isQualified = false) (hne : st.children ty ≠ [])
    (hparts : ∀ p ∈ parts, p < st.size)
    (hread : parts.map st.tree = (st.children ty).map g) :
    (rebuild ty parts).Yields st fun r st' =>
      r < st'.size ∧ st'.tree r = .mk ((st.shape ty).map g) := by
  unfold rebuild
  refine yields_get_bind ?_
  rcases Shape.withChildren?_map (s := st.shape ty) hread with ⟨-, hnil⟩ | ⟨s', hs', hmap, hchildren, hqual⟩
  · exact absurd hnil hne
  rw [hs', ← hmap]
  have hs'c : ∀ c ∈ s'.children, c < st.size := by rw [hchildren]; exact hparts
  rw [hq] at hqual
  cases s' with
  | qualified q base => simp [Shape.isQualified] at hqual
  | tuple items =>
      have hitems : items ≠ [] := by
        rintro rfl
        have hlen := congrArg List.length hread
        rw [← hchildren] at hlen
        simp only [Shape.children, List.map_nil, List.length_nil, List.length_map] at hlen
        exact hne (List.length_eq_zero_iff.mp hlen.symm)
      show (tuple items).Yields st _
      have hyields := yields_tuple (show ∀ c ∈ items, c < st.size from hs'c)
      refine hyields.mono fun r st' _ hr => ⟨hr.1, ?_⟩
      rw [hr.2, TypeTree.tuple, if_neg (by simpa using hitems)]
      rfl
  | _ => exact yields_build rfl hs'c

/-- A qualified type rebuilt over another base reads as that base. -/
theorem yields_rebuild_qualified {q : Qualifier} {base new : TypeId}
    (hs : st.shape ty = .qualified q base) (hnew : new < st.size) :
    (rebuild ty [new]).Yields st fun r st' => r < st'.size ∧ st'.tree r = st.tree new := by
  unfold rebuild
  refine yields_get_bind ?_
  rw [hs]
  show (qualify q new).Yields st _
  refine (yields_qualify q hnew).mono fun r st' hsteps hr => ⟨hr.1, ?_⟩
  rw [← tree_bare, hr.2, tree_of_le hsteps.le (bare_lt_size hnew), tree_bare]

/-! ## Replacing variables -/

/-- The walk over a type, without the proof that it ends. -/
theorem mapVars_eq (f : TypeId → TypeId) (ty : TypeId) :
    mapVars f ty = do
      let st ← get
      if st.isGeneric ty then
        if st.isVar ty then
          return f ty
        else
          let mapped ← (st.children ty).mapM (mapVars f)
          if mapped = st.children ty then return ty else rebuild ty mapped
      else
        return ty := by
  rw [mapVars]
  congr 1
  funext st
  have hmap : ((st.children ty).attach.mapM fun c => mapVars f c.1) =
      (st.children ty).mapM (mapVars f) := mapM_attach fun _ => rfl
  simp only [hmap]

/-- The trees of types that grew one by one out of the types of a list. -/
theorem map_tree_of_forall₂ {xs : List { c // c ∈ st.children ty }} {ys : List TypeId}
    {g : TypeId → TypeTree} {st' : Store}
    (h : List.Forall₂ (fun x y => y < st'.size ∧ st'.tree y = g x.1) xs ys) :
    ys.map st'.tree = (xs.map Subtype.val).map g ∧ ∀ y ∈ ys, y < st'.size := by
  induction h with
  | nil => exact ⟨rfl, by simp⟩
  | cons hxy _ ih =>
    refine ⟨by rw [List.map_cons, List.map_cons, List.map_cons, ih.1, hxy.2], ?_⟩
    intro y hy
    rcases List.mem_cons.mp hy with rfl | hy
    · exact hxy.1
    · exact ih.2 y hy

/-- Constituents whose variables were replaced make the type with its variables replaced.  The type
is that of an earlier store `st₀`. -/
theorem yields_rejoin {σ : VarIdent → TypeTree} {st₀ : Store} {mapped : List TypeId}
    (hle : st₀ ≤ st) (hty : ty < st₀.size) (hvar : (st₀.shape ty).isVar = false)
    (hne : st₀.children ty ≠ []) (hlt : ∀ c ∈ mapped, c < st.size)
    (hread : mapped.map st.tree = (st₀.children ty).map fun c => (st₀.tree c).subst σ) :
    (if mapped = st₀.children ty then pure ty else rebuild ty mapped).Yields st
      fun r st' => r < st'.size ∧ st'.tree r = (st₀.tree ty).subst σ := by
  have hty' : ty < st.size := lt_size_of_le hle hty
  have hshape : st.shape ty = st₀.shape ty := shape_of_le hle hty
  have hchildren : st.children ty = st₀.children ty := children_of_le hle hty
  by_cases hq : (st₀.shape ty).isQualified = true
  · -- a qualified type reads as its base
    obtain ⟨q, base, hs₀⟩ := isQualified_iff.mp hq
    have hbase : base < st₀.size := Nat.lt_trans (lt_of_qualified hs₀) hty
    have hcs : st₀.children ty = [base] := by
      show (st₀.shape ty).children = [base]
      rw [hs₀]; rfl
    rw [hcs, List.map_cons, List.map_nil] at hread
    obtain ⟨m, rfl, hm⟩ : ∃ m, mapped = [m] ∧ st.tree m = (st₀.tree base).subst σ := by
      simpa [List.map_eq_cons_iff] using hread
    rw [hcs, tree_of_qualified hs₀]
    by_cases hsame : [m] = [base]
    · rw [if_pos hsame]
      obtain rfl : m = base := by simpa using hsame
      refine yields_pure ⟨hty', ?_⟩
      rw [tree_of_le hle hty, tree_of_qualified hs₀, ← hm, tree_of_le hle hbase]
    · rw [if_neg hsame]
      exact (yields_rebuild_qualified (hshape.trans hs₀) (hlt m List.mem_cons_self)).mono
        fun r st' _ hr => ⟨hr.1, hr.2.trans hm⟩
  · have hq : (st₀.shape ty).isQualified = false := by simpa using hq
    rw [tree_of_not_qualified hq, TypeTree.subst_mk (by simpa using hvar), Shape.map_map]
    by_cases hsame : mapped = st₀.children ty
    · rw [if_pos hsame]
      refine yields_pure ⟨hty', ?_⟩
      rw [tree_of_not_qualified (by rw [hshape, hq]), hshape]
      refine congrArg TypeTree.mk (Shape.map_congr fun c hc => ?_)
      rw [hsame] at hread
      exact List.map_inj_left.mp hread c hc
    · rw [if_neg hsame, ← hshape]
      exact yields_rebuild (by rw [hshape, hq]) (by rwa [hchildren]) hlt (by rwa [hchildren])

/-- Replacing the variables of a type replaces them in its tree.  The type and the replacements are
those of an earlier store `st₀`; the walk over the type goes on from a later one, since it meets the
constituents of the type in stores that have grown. -/
theorem yields_mapVars_from {f : TypeId → TypeId} {σ : VarIdent → TypeTree} {st₀ : Store}
    (hf : ∀ v x, v < st₀.size → st₀.shape v = .var x → f v < st₀.size ∧ st₀.tree (f v) = σ x)
    (hle : st₀ ≤ st) (hty : ty < st₀.size) :
    (mapVars f ty).Yields st fun r st' => r < st'.size ∧ st'.tree r = (st₀.tree ty).subst σ := by
  induction ty using Nat.strongRecOn generalizing st with
  | ind ty ih =>
    have hty' : ty < st.size := lt_size_of_le hle hty
    have hchildren : st.children ty = st₀.children ty := children_of_le hle hty
    have hshape : st.shape ty = st₀.shape ty := shape_of_le hle hty
    rw [mapVars]
    refine yields_get_bind ?_
    by_cases hg : st.isGeneric ty = true
    swap
    · rw [if_neg hg]
      refine yields_pure ⟨hty', ?_⟩
      rw [isGeneric_iff hty', tree_of_le hle hty] at hg
      rw [tree_of_le hle hty]
      exact (TypeTree.subst_eq_self fun x hx => absurd ⟨x, hx⟩ hg).symm
    rw [if_pos hg]
    by_cases hv : st.isVar ty = true
    · rw [if_pos hv]
      obtain ⟨x, hx⟩ := Shape.isVar_iff.mp hv
      have hx₀ : st₀.shape ty = .var x := hshape ▸ hx
      obtain ⟨hlt, hread⟩ := hf ty x hty hx₀
      refine yields_pure ⟨lt_size_of_le hle hlt, ?_⟩
      rw [tree_of_le hle hlt, hread, tree_of_var hx₀, TypeTree.subst_var]
    rw [if_neg hv]
    have hloop : ((st.children ty).attach.mapM fun c => mapVars f c.1).Yields st
        fun ys st' => List.Forall₂
          (fun c r => r < st'.size ∧ st'.tree r = (st₀.tree c.1).subst σ)
          (st.children ty).attach ys := by
      refine yields_mapM (P := fun (c : { c // c ∈ st.children ty }) r st' =>
        r < st'.size ∧ st'.tree r = (st₀.tree c.1).subst σ) ?_ ?_
      · intro c r st₁ st₂ hs h
        exact ⟨lt_size_of_le hs.le h.1, by rw [tree_of_le hs.le h.1, h.2]⟩
      · intro c _ st' hs
        have hc : c.1 ∈ st₀.children ty := hchildren ▸ c.2
        exact ih c.1 (lt_of_mem_children hc) (le_trans hle hs.le) (lt_size_of_mem_children hty hc)
    refine hloop.bind fun mapped st₁ hs hmapped => ?_
    obtain ⟨hread, hlt⟩ := map_tree_of_forall₂ (g := fun c => (st₀.tree c).subst σ) hmapped
    rw [List.attach_map_subtype_val, hchildren] at hread
    have hvar : (st₀.shape ty).isVar = false := by
      rw [← hshape]
      simpa [Store.isVar] using hv
    have hne : st₀.children ty ≠ [] := by
      rw [isGeneric_eq hty', hchildren] at hg
      intro hnil
      rw [hnil] at hg
      simp only [List.any_nil, Bool.or_false] at hg
      exact hv hg
    rw [hchildren]
    exact yields_rejoin (le_trans hle hs.le) hty hvar hne hlt hread

theorem yields_mapVars {f : TypeId → TypeId} {σ : VarIdent → TypeTree}
    (hf : ∀ v x, v < st.size → st.shape v = .var x → f v < st.size ∧ st.tree (f v) = σ x)
    (hty : ty < st.size) :
    (mapVars f ty).Yields st fun r st' => r < st'.size ∧ st'.tree r = (st.tree ty).subst σ :=
  yields_mapVars_from hf le_rfl hty

theorem yields_replaceVar {v r : TypeId} {x : VarIdent} (hv : st.shape v = .var x)
    (hr : r < st.size) (hty : ty < st.size) :
    (replaceVar ty v r).Yields st fun ty' st' =>
      ty' < st'.size ∧ st'.tree ty' = (st.tree ty).replace x (st.tree r) := by
  refine yields_mapVars (fun w y hw hy => ?_) hty
  by_cases hwv : w = v
  · subst hwv
    obtain rfl : x = y := Shape.var.inj (hv.symm.trans hy)
    simpa using hr
  · have hyx : y ≠ x := fun h => hwv (eq_of_shape_var (h ▸ hy) hv)
    rw [if_neg hwv, Function.update_of_ne hyx]
    exact ⟨hw, tree_of_var hy⟩

/-! ## Replacements that change nothing -/

/-- A type whose variables are all replaced by themselves is kept, and so is the store. -/
theorem mapVars_eq_self {f : TypeId → TypeId} (st : Store) (ty : TypeId)
    (hf : ∀ v x, st.shape v = .var x → (st.tree ty).Occurs x → f v = v) :
    mapVars f ty st = (ty, st) := by
  induction ty using Nat.strongRecOn with
  | ind ty ih =>
    rw [mapVars]
    change (ite (st.isGeneric ty = true) _ _ : StoreM TypeId) st = _
    by_cases hg : st.isGeneric ty = true
    swap
    · rw [if_neg hg]
      rfl
    rw [if_pos hg]
    by_cases hv : st.isVar ty = true
    · rw [if_pos hv]
      obtain ⟨x, hx⟩ := Shape.isVar_iff.mp hv
      have hfty : f ty = ty := hf ty x hx (occurs_tree.mpr (Or.inl hx))
      rw [hfty]
      rfl
    rw [if_neg hv]
    have hloop : ((st.children ty).attach.mapM fun c => mapVars f c.1) st =
        (st.children ty, st) := by
      rw [mapM_eq_self (g := fun c => c.1), List.attach_map_subtype_val]
      intro c _
      exact ih c.1 (lt_of_mem_children c.2) fun v x hv hx =>
        hf v x hv (occurs_tree.mpr (Or.inr ⟨c.1, c.2, hx⟩))
    simp only [StateM.bind_apply]
    rw [hloop, if_pos rfl]
    rfl

end StoreM

end ConstraintTyping
