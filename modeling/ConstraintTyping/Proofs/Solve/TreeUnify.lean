import ConstraintTyping.Proofs.Solve.Compatible
import ConstraintTyping.Solve.Unify

/-!
# Unification from one list, read as trees

Unification can keep all pairs that are still to be made equal in one list, and all bindings found
so far in another (`StoreM.settle`).  What it finds depends on the trees of the types alone.
`TypeTree.unifyPairs` is the same procedure on trees, with no store to thread;
`StoreM.yields_settle` says that a run in a store reads as the run on the trees, result, bindings and
failure alike.
-/

namespace ConstraintTyping

namespace Shape

variable {α β : Type}

/-- The two counts that are to blame when heads of one kind differ, with what was counted. -/
def counts? : Shape α → Shape α → Option (Nat × Nat × ArityKind)
  | .tuple xs, .tuple ys => some (xs.length, ys.length, .tuple)
  | .function f, .function g =>
    if f.isMeta = g.isMeta then some (f.params.length, g.params.length, .function) else none
  | .product n xs, .product m ys | .sum n xs, .sum m ys | .trait n _ xs, .trait m _ ys =>
    if n = m then some (xs.length, ys.length, .typeArgs) else none
  | _, _ => none

theorem counts?_map (f : α → β) (s t : Shape α) : (s.map f).counts? (t.map f) = s.counts? t := by
  cases s <;> cases t <;> simp [counts?, map, Signature.map]

end Shape

namespace TypeTree

/-- Why two trees cannot be made equal. -/
inductive Clash where
  | mismatch (expected found : TypeTree)
  | infinite (var containing : TypeTree)
  | arity (expected found : Nat) (kind : ArityKind)
  | stepLimit (limit : Nat)

/-- What a pair of trees asks for. -/
inductive Move where
  | bind (x : VarIdent) (r : TypeTree)
  | split (pairs : List (TypeTree × TypeTree))

/-- The clash of two trees with different heads. -/
def headClash (a b : TypeTree) : Clash :=
  match a.shape.counts? b.shape with
  | some (m, n, kind) => .arity m n kind
  | none => .mismatch a b

open Classical in
/-- Bind a variable to a tree in which it does not occur. -/
noncomputable def bindMove (x : VarIdent) (r : TypeTree) : Except Clash Move :=
  if Occurs x r then .error (.infinite (var x) r) else .ok (.bind x r)

open Classical in
/-- The constituents of two trees that are to be made equal instead of the trees.  Two different
trees without variables clash at once. -/
noncomputable def splitMove (a b : TypeTree) : Except Clash Move :=
  if ¬ a.Generic ∧ ¬ b.Generic then .error (.mismatch a b)
  else if a.shape.SameHead b.shape then .ok (.split (a.shape.compared b.shape))
  else .error (headClash a b)

open Classical in
/-- What a pair of trees asks for. -/
noncomputable def move (a b : TypeTree) : Except Clash Move :=
  if a = b ∨ a = error ∨ b = error then .ok (.split [])
  else match a.shape.varIdent?, b.shape.varIdent? with
    | some x, _ => bindMove x b
    | none, some y => bindMove y a
    | none, none => splitMove a b

/-- Make all pairs of trees equal in at most `budget` steps. -/
noncomputable def unifyPairs (limit : Nat) : (budget : Nat) → List (TypeTree × TypeTree) → Bound →
    Except (Clash × Bound) Bound
  | _, [], found => .ok found
  | 0, _ :: _, found => .error (.stepLimit limit, found)
  | budget + 1, (a, b) :: rest, found =>
    match move (applyAll found a) (applyAll found b) with
    | .error clash => .error (clash, found)
    | .ok (.bind x r) => unifyPairs limit budget rest ((x, r) :: found)
    | .ok (.split pairs) => unifyPairs limit budget (pairs ++ rest) found

theorem eq_var_of_varIdent? {t : TypeTree} {x : VarIdent} (h : t.shape.varIdent? = some x) :
    t = var x := by
  obtain ⟨s⟩ := t
  cases s <;> simp_all [Shape.varIdent?]

/-- The ways in which a pair leads to a binding or to further pairs. -/
theorem move_cases (a b : TypeTree) :
    ((a = b ∨ a = error ∨ b = error) ∧ move a b = .ok (.split [])) ∨
    (∃ x, a = var x ∧ a ≠ b ∧ a ≠ error ∧ b ≠ error ∧ move a b = bindMove x b) ∨
    (∃ y, b = var y ∧ a ≠ b ∧ a ≠ error ∧ b ≠ error ∧ a.shape.isVar = false ∧
      move a b = bindMove y a) ∨
    (a ≠ b ∧ a ≠ error ∧ b ≠ error ∧ a.shape.isVar = false ∧ b.shape.isVar = false ∧
      move a b = splitMove a b) := by
  by_cases hsame : a = b ∨ a = error ∨ b = error
  · exact Or.inl ⟨hsame, by rw [move, if_pos hsame]⟩
  obtain ⟨hab, hae, hbe⟩ : a ≠ b ∧ a ≠ error ∧ b ≠ error := by simpa [not_or] using hsame
  have hnone : ∀ t : TypeTree, t.shape.varIdent? = none → t.shape.isVar = false := by
    intro t ht
    obtain ⟨s⟩ := t
    cases s <;> simp_all [Shape.varIdent?, Shape.isVar]
  cases hx : a.shape.varIdent? with
  | some x =>
    exact Or.inr (Or.inl ⟨x, eq_var_of_varIdent? hx, hab, hae, hbe,
      by rw [move, if_neg hsame, hx]⟩)
  | none =>
    cases hy : b.shape.varIdent? with
    | some y =>
      exact Or.inr (Or.inr (Or.inl ⟨y, eq_var_of_varIdent? hy, hab, hae, hbe, hnone a hx,
        by rw [move, if_neg hsame, hx, hy]⟩))
    | none =>
      exact Or.inr (Or.inr (Or.inr ⟨hab, hae, hbe, hnone a hx, hnone b hy,
        by rw [move, if_neg hsame, hx, hy]⟩))

end TypeTree

/-- A failure of unification as a clash of trees. -/
def UnifyError.read (st : Store) : UnifyError → TypeTree.Clash
  | .mismatch expected found => .mismatch (st.tree expected) (st.tree found)
  | .infinite var containing => .infinite (st.tree var) (st.tree containing)
  | .arity expected found kind => .arity expected found kind
  | .stepLimit limit => .stepLimit limit

/-- The types that a failure names. -/
def UnifyError.types : UnifyError → List TypeId
  | .mismatch expected found => [expected, found]
  | .infinite var containing => [var, containing]
  | .arity _ _ _ | .stepLimit _ => []

namespace Store

open TypeTree

variable {st : Store} {a b : TypeId}

open Classical in
/-- Decomposition succeeds exactly on shapes of one head, and then gives what is compared. -/
theorem decompose_eq (st : Store) (a b : TypeId) :
    st.decompose a b =
      if (st.shape a).SameHead (st.shape b) then .ok ((st.shape a).compared (st.shape b))
      else .error (match (st.shape a).counts? (st.shape b) with
        | some (m, n, kind) => .arity m n kind
        | none => .mismatch a b) := by
  unfold decompose
  generalize hs : st.shape a = s
  generalize ht : st.shape b = t
  -- shapes of two kinds clash, by reduction
  cases s <;> cases t <;> try exact (if_neg id).symm
  case pointer.pointer x y => exact (if_pos trivial).symm
  case array.array x m y n =>
    by_cases h : m = n
    · rw [if_pos (show (Shape.array x m).SameHead (.array y n) from h)]
      exact if_pos h
    · rw [if_neg (show ¬ (Shape.array x m).SameHead (.array y n) from h)]
      exact if_neg h
  case tuple.tuple xs ys =>
    by_cases h : xs.length = ys.length
    · rw [if_pos (show (Shape.tuple xs).SameHead (.tuple ys) from h)]
      exact if_pos h
    · rw [if_neg (show ¬ (Shape.tuple xs).SameHead (.tuple ys) from h)]
      exact if_neg h
  case function.function f g =>
    simp only [Shape.SameHead, Shape.compared, Shape.counts?]
    by_cases hm : f.isMeta = g.isMeta
    · by_cases hn : f.params.length = g.params.length ∨ f.isVariadic = true ∨ g.isVariadic = true
      · rcases hn with hn | hn | hn <;> simp [hm, hn]
      · obtain ⟨hlen, hf, hg⟩ := by simpa [not_or] using hn
        simp [hm, hlen, hf, hg]
    · simp [hm]
  case product.product n xs m ys =>
    by_cases hn : n = m <;> by_cases hl : xs.length = ys.length <;>
      simp [Shape.SameHead, Shape.compared, Shape.counts?, Shape.children, hn, hl]
  case sum.sum n xs m ys =>
    by_cases hn : n = m <;> by_cases hl : xs.length = ys.length <;>
      simp [Shape.SameHead, Shape.compared, Shape.counts?, Shape.children, hn, hl]
  case trait.trait n s xs m t ys =>
    by_cases hn : n = m <;> by_cases hl : xs.length = ys.length <;>
      simp [Shape.SameHead, Shape.compared, Shape.counts?, Shape.children, hn, hl, Except.map]

theorem shape_bare_of_tree_var {x : VarIdent} (h : st.tree a = var x) :
    st.shape (st.bare a) = .var x := by
  have hshape := shape_tree st a
  rw [h, shape_mk] at hshape
  cases hs : st.shape (st.bare a) <;> rw [hs] at hshape <;> cases hshape
  rfl

/-- A step on types that reads as a move on their trees.  A failure names types without their
qualifiers. -/
def StepReads (st : Store) (step : Except UnifyError UnifyStep) (move : Except Clash Move) : Prop :=
  (∃ e, step = .error e ∧ (∀ ty ∈ e.types, ty < st.size ∧ st.bare ty = ty) ∧
    move = .error (e.read st)) ∨
  (∃ v r x, step = .ok (.bind v r) ∧ st.shape v = .var x ∧ r < st.size ∧
    st.bare r = r ∧ move = .ok (.bind x (st.tree r))) ∨
  (∃ ps, step = .ok (.split ps) ∧ (∀ p ∈ ps, p.1 < st.size ∧ p.2 < st.size) ∧
    move = .ok (.split (ps.map (Prod.map st.tree st.tree))))

theorem bindStep_reads {v r : TypeId} {x : VarIdent} (hv : st.shape v = .var x) (hr : r < st.size)
    (hbare : st.bare r = r) : st.StepReads (st.bindStep v r) (bindMove x (st.tree r)) := by
  have hiff := occurs_iff hv hr
  unfold bindStep bindMove
  by_cases ho : st.occurs v r = true
  · rw [if_pos ho, if_pos (hiff.mp ho)]
    have hvar : v < st.size ∧ st.bare v = v :=
      ⟨lt_size_of_isVar (by rw [isVar, hv]; rfl), bare_of_not_qualified (by rw [hv]; rfl)⟩
    exact .inl ⟨_, rfl, by simp [UnifyError.types, hvar, hr, hbare],
      by simp only [UnifyError.read, tree_of_var hv]⟩
  · rw [if_neg ho, if_neg (fun h => ho (hiff.mpr h))]
    exact .inr (.inl ⟨v, r, x, rfl, hv, hr, hbare, rfl⟩)

theorem decompose_reads (ha : a < st.size) (hb : b < st.size) (hbareA : st.bare a = a)
    (hbareB : st.bare b = b) (hg : ¬ (¬ (st.tree a).Generic ∧ ¬ (st.tree b).Generic)) :
    st.StepReads ((st.decompose a b).map .split) (splitMove (st.tree a) (st.tree b)) := by
  rw [decompose_eq, splitMove, if_neg hg, shape_tree, shape_tree, hbareA, hbareB,
    Shape.sameHead_map, Shape.compared_map]
  by_cases hh : (st.shape a).SameHead (st.shape b)
  · rw [if_pos hh, if_pos hh]
    refine .inr (.inr ⟨_, rfl, fun p hp => ?_, rfl⟩)
    obtain ⟨h₁, h₂⟩ := Shape.mem_children_of_mem_compared hp
    exact ⟨lt_size_of_mem_children ha h₁, lt_size_of_mem_children hb h₂⟩
  · rw [if_neg hh, if_neg hh, headClash, shape_tree, shape_tree, hbareA, hbareB, Shape.counts?_map]
    refine .inl ⟨_, rfl, ?_⟩
    cases (st.shape a).counts? (st.shape b) with
    | none => simp [UnifyError.types, UnifyError.read, ha, hb, hbareA, hbareB]
    | some c => exact ⟨by simp [UnifyError.types], rfl⟩

/-- The step that a pair of types asks for is the move of their trees. -/
theorem unifyStep_spec (ha : a < st.size) (hb : b < st.size) :
    st.StepReads (st.unifyStep a b) (move (st.tree a) (st.tree b)) := by
  have ha' := bare_lt_size ha
  have hb' := bare_lt_size hb
  have hsame : (st.bare a = st.bare b || (st.bare a).isError || (st.bare b).isError) = true ↔
      st.tree a = st.tree b ∨ st.tree a = error ∨ st.tree b = error := by
    rw [Bool.or_eq_true, Bool.or_eq_true, decide_eq_true_eq, bare_isError_iff ha,
      bare_isError_iff hb, tree_eq_iff ha hb, or_assoc]
  have hgen : (!st.isGeneric (st.bare a) && !st.isGeneric (st.bare b)) = true ↔
      ¬ (st.tree a).Generic ∧ ¬ (st.tree b).Generic := by
    have hga := isGeneric_iff ha'
    have hgb := isGeneric_iff hb'
    rw [tree_bare] at hga hgb
    simp [← hga, ← hgb]
  have hstep : st.unifyStep a b =
      if (st.bare a = st.bare b || (st.bare a).isError || (st.bare b).isError) = true then
        .ok (.split [])
      else if st.isVar (st.bare a) then st.bindStep (st.bare a) (st.bare b)
      else if st.isVar (st.bare b) then st.bindStep (st.bare b) (st.bare a)
      else if !st.isGeneric (st.bare a) && !st.isGeneric (st.bare b) then
        .error (.mismatch (st.bare a) (st.bare b))
      else (st.decompose (st.bare a) (st.bare b)).map .split := rfl
  rw [hstep]
  rcases move_cases (st.tree a) (st.tree b) with
    ⟨h, hm⟩ | ⟨x, hx, hab, hae, hbe, hm⟩ | ⟨y, hy, hab, hae, hbe, hav, hm⟩ |
      ⟨hab, hae, hbe, hav, hbv, hm⟩
  · rw [if_pos (hsame.mpr h), hm]
    exact .inr (.inr ⟨[], rfl, by simp, rfl⟩)
  · -- the left type is a variable
    have hv : st.isVar (st.bare a) = true := by rw [isVar_bare, hx]; rfl
    have hreads := bindStep_reads (shape_bare_of_tree_var hx) hb' (bare_bare st b)
    rw [tree_bare] at hreads
    rwa [if_neg (by rw [hsame]; simp [hab, hae, hbe]), if_pos hv, hm]
  · -- only the right type is a variable
    have hv : st.isVar (st.bare b) = true := by rw [isVar_bare, hy]; rfl
    have hreads := bindStep_reads (shape_bare_of_tree_var hy) ha' (bare_bare st a)
    rw [tree_bare] at hreads
    rwa [if_neg (by rw [hsame]; simp [hab, hae, hbe]), if_neg (by rw [isVar_bare, hav]; simp),
      if_pos hv, hm]
  · -- neither is, so the heads decide
    rw [if_neg (by rw [hsame]; simp [hab, hae, hbe]), if_neg (by rw [isVar_bare, hav]; simp),
      if_neg (by rw [isVar_bare, hbv]; simp), hm]
    by_cases hg : ¬ (st.tree a).Generic ∧ ¬ (st.tree b).Generic
    · rw [if_pos (hgen.mpr hg), splitMove, if_pos hg]
      exact .inl ⟨_, rfl, by simp [UnifyError.types, ha', hb', bare_bare],
        by simp [UnifyError.read]⟩
    · rw [if_neg (fun h => hg (hgen.mp h))]
      have hreads := decompose_reads ha' hb' (bare_bare st a) (bare_bare st b)
        (by rwa [tree_bare, tree_bare])
      rwa [tree_bare, tree_bare] at hreads

end Store

namespace StoreM

open Store TypeTree

variable {st : Store}

/-- Make all pairs of a list equal in at most `budget` steps.  What a pair gives way to goes to the
front of the list, and every pair is read through all bindings found so far. -/
def settle (limit : Nat) : (budget : Nat) → List (TypeId × TypeId) → Bindings →
    StoreM (Except UnifyFailure Bindings)
  | _, [], found => pure (.ok found)
  | 0, (x, y) :: _, found => do
    let _ ← found.apply x
    let _ ← found.apply y
    return .error ⟨.stepLimit limit, found⟩
  | budget + 1, (x, y) :: rest, found => do
    let x ← found.apply x
    let y ← found.apply y
    match (← get).unifyStep x y with
    | .error error => return .error ⟨error, found⟩
    | .ok (.bind var ty) => settle limit budget rest (found.prepend var ty)
    | .ok (.split pairs) => settle limit budget (pairs ++ rest) found

/-- A result of unification in a store reads as a result on trees. -/
def Reads (st : Store) : Except UnifyFailure Bindings → Except (Clash × Bound) Bound → Prop
  | .ok b, r => b.Within st ∧ (∀ p ∈ b.pairs, st.bare p.2 = p.2) ∧ r = .ok (b.read st)
  | .error f, r => (f.found.Within st ∧ ∀ ty ∈ f.error.types, ty < st.size ∧ st.bare ty = ty) ∧
      r = .error (f.error.read st, f.found.read st)

theorem Reads.exists_ok_iff {result : Except UnifyFailure Bindings}
    {read : Except (Clash × Bound) Bound} (h : Reads st result read) :
    (∃ s, result = .ok s) ↔ ∃ bs, read = .ok bs := by
  cases result with
  | ok s => exact iff_of_true ⟨s, rfl⟩ ⟨_, h.2.2⟩
  | error f =>
    refine iff_of_false (fun ⟨s, hs⟩ => ?_) fun ⟨bs, hbs⟩ => ?_
    · cases hs
    · cases h.2.symm.trans hbs

/-- A run in a store reads as the run on the trees.  The bindings found so far are given with the
fact that they bind to types without qualifiers, which each step keeps. -/
theorem yields_settle (limit : Nat) {budget : Nat} {pairs : List (TypeId × TypeId)}
    {found : Bindings} (hpairs : ∀ p ∈ pairs, p.1 < st.size ∧ p.2 < st.size)
    (hfound : found.Within st) (hbare : ∀ p ∈ found.pairs, st.bare p.2 = p.2) :
    (StoreM.settle limit budget pairs found).Yields st fun res st' =>
      Reads st' res (TypeTree.unifyPairs limit budget
        (pairs.map (Prod.map st.tree st.tree)) (found.read st)) := by
  induction budget generalizing pairs found st with
  | zero =>
    cases pairs with
    | nil => exact yields_pure ⟨hfound, hbare, rfl⟩
    | cons p rest =>
      obtain ⟨x, y⟩ := p
      obtain ⟨hx, hy⟩ := hpairs (x, y) List.mem_cons_self
      rw [StoreM.settle]
      refine (Bindings.yields_apply hfound hx).bind fun x' st₁ hs₁ _ => ?_
      refine (Bindings.yields_apply (hfound.of_le hs₁.le) (lt_size_of_le hs₁.le hy)).bind
        fun y' st₂ hs₂ _ => ?_
      have hs : Steps st st₂ := hs₁.trans hs₂
      refine yields_pure ⟨⟨hfound.of_le hs.le, by simp [UnifyError.types]⟩, ?_⟩
      rw [Bindings.read_of_le hfound hs.le]
      rfl
  | succ budget ih =>
    cases pairs with
    | nil => exact yields_pure ⟨hfound, hbare, rfl⟩
    | cons p rest =>
      obtain ⟨x, y⟩ := p
      obtain ⟨hx, hy⟩ := hpairs (x, y) List.mem_cons_self
      have hrest : ∀ p ∈ rest, p.1 < st.size ∧ p.2 < st.size :=
        fun p hp => hpairs p (List.mem_cons_of_mem _ hp)
      rw [StoreM.settle]
      refine (Bindings.yields_apply hfound hx).bind fun x' st₁ hs₁ ⟨hx', hxread⟩ => ?_
      refine (Bindings.yields_apply (hfound.of_le hs₁.le) (lt_size_of_le hs₁.le hy)).bind
        fun y' st₂ hs₂ ⟨hy', hyread⟩ => ?_
      have hs : Steps st st₂ := hs₁.trans hs₂
      have hfound₂ := hfound.of_le hs.le
      have hread₂ := Bindings.read_of_le hfound hs.le
      have hbare₂ : ∀ p ∈ found.pairs, st₂.bare p.2 = p.2 := fun p hp => by
        rw [bare_of_le hs.le (hfound p hp).2, hbare p hp]
      rw [Bindings.read_of_le hfound hs₁.le, tree_of_le hs₁.le hy] at hyread
      have hx'' : x' < st₂.size := lt_size_of_le hs₂.le hx'
      rw [← tree_of_le hs₂.le hx'] at hxread
      -- the trees of pairs that wait are not changed by the growth so far
      have hrest₂ : ∀ p ∈ rest, p.1 < st₂.size ∧ p.2 < st₂.size := fun p hp =>
        ⟨lt_size_of_le hs.le (hrest p hp).1, lt_size_of_le hs.le (hrest p hp).2⟩
      have hrestRead : rest.map (Prod.map st₂.tree st₂.tree) =
          rest.map (Prod.map st.tree st.tree) := List.map_congr_left fun p hp =>
        Prod.ext (tree_of_le hs.le (hrest p hp).1) (tree_of_le hs.le (hrest p hp).2)
      refine yields_get_bind ?_
      rw [List.map_cons, Prod.map_apply, TypeTree.unifyPairs, ← hxread, ← hyread]
      rcases unifyStep_spec hx'' hy' with
        ⟨e, h₁, he, h₂⟩ | ⟨v, r, z, h₁, hv, hr, hrb, h₂⟩ | ⟨ps, h₁, hps, h₂⟩
      · rw [h₁, h₂]
        exact yields_pure ⟨⟨hfound₂, he⟩, by rw [hread₂]⟩
      · rw [h₁, h₂]
        have hvar : st₂.isVar v = true := by rw [Store.isVar, hv]; rfl
        have := ih hrest₂ (hfound₂.prepend hvar hr) (List.forall_mem_cons.mpr ⟨hrb, hbare₂⟩)
        rw [Bindings.read_prepend hv, hread₂, hrestRead] at this
        exact this
      · rw [h₁, h₂]
        have := ih (List.forall_mem_append.mpr ⟨hps, hrest₂⟩) hfound₂ hbare₂
        rw [hread₂, List.map_append, hrestRead] at this
        exact this

end StoreM

end ConstraintTyping
