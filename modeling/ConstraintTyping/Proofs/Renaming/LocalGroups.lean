import ConstraintTyping.Proofs.Renaming.LocalNames
import ConstraintTyping.Proofs.Renaming.Locality

/-!
# What a body seems to refer to

Groups are made from all names in a body, whether they are local or not.  When a binder gets another
name, the names in the body change that it binds.  As long as neither its old name nor the new one is
that of a function with a body, the groups stay.
-/

namespace ConstraintTyping

/-! ## The names that stay -/

/-- A test that neither name of a binder passes. -/
structure NameTest (ρ : LocalRenaming) where
  passes : Name → Bool
  old : passes ρ.old = false
  name : passes ρ.name = false

variable {ρ : LocalRenaming} {r r' : LocalNames} {T : NameTest ρ}

/-- The names among nodes that pass a test. -/
def NameTest.idents (T : NameTest ρ) (nodes : List TreeNode) : List Name :=
  (nodes.filterMap TreeNode.ident?).filter T.passes

theorem idents_params_append {params params' : List Param} {xs xs' : List TreeNode}
    (h : T.idents xs' = T.idents xs) :
    T.idents (params'.map .param ++ xs') = T.idents (params.map .param ++ xs) := by
  have hparams : ∀ params : List Param, (params.map TreeNode.param).filterMap TreeNode.ident? = [] :=
    fun params => by
      rw [List.filterMap_map]
      exact List.filterMap_eq_nil_iff.mpr fun _ _ => rfl
  rw [NameTest.idents, NameTest.idents, List.filterMap_append, List.filterMap_append, hparams, hparams]
  exact h

/-- The names in scope that pass the test have not changed. -/
def NameTest.Hides (T : NameTest ρ) (r : LocalNames) : Prop :=
  ∀ q ∈ r.pairs, q.2 = q.1 ∨ T.passes q.1 = false ∧ T.passes q.2 = false

/-- The names among nodes that pass the test stay, and so do those that are in scope then. -/
def KeepsIdents (T : NameTest ρ) (xs xs' : List TreeNode) (r : LocalNames) : Prop :=
  T.idents xs' = T.idents xs ∧ T.Hides r

theorem KeepsIdents.append {xs xs' ys ys' : List TreeNode} (h : KeepsIdents T xs xs' r)
    (h' : T.Hides r → KeepsIdents T ys ys' r') :
    KeepsIdents T (xs ++ ys) (xs' ++ ys') r' := by
  obtain ⟨hys, hpairs⟩ := h' h.2
  refine ⟨?_, hpairs⟩
  rw [NameTest.idents, NameTest.idents, List.filterMap_append, List.filterMap_append,
    List.filter_append, List.filter_append]
  exact congrArg₂ (· ++ ·) h.1 hys

theorem hides_bindName (x : Name) (h : T.Hides r) : T.Hides (LocalM.bindName ρ x r).2 := by
  refine List.forall_mem_cons.mpr ⟨?_, h⟩
  dsimp only
  split
  · next hb =>
    rw [hb.2]
    exact .inr ⟨T.old, T.name⟩
  · exact .inl rfl

theorem hides_bindParams (params : List Param) (h : T.Hides r) :
    T.Hides (LocalM.bindParams ρ params r).2 := by
  induction params generalizing r with
  | nil => exact h
  | cons q rest ih => exact ih (hides_bindName q.name h)

theorem keepsIdents_ident {id : ExprId} {span : Span} (x : Name) (h : T.Hides r) :
    KeepsIdents T [.expr (.mk id span (.ident x))] [.expr (.mk id span (.ident (r.nameOf x)))] r := by
  refine ⟨?_, h⟩
  cases hx : r.pairs.lookup x with
  | none => rw [LocalNames.nameOf, hx, Option.getD_none]
  | some x' =>
    obtain ⟨l₁, l₂, hpairs, -⟩ := List.lookup_eq_some_iff.mp hx
    have hmem : (x, x') ∈ r.pairs := by rw [hpairs]; simp
    rw [LocalNames.nameOf, hx, Option.getD_some]
    rcases h _ hmem with heq | ⟨hx, hx'⟩
    · rw [show x' = x from heq]
    · simp [NameTest.idents, TreeNode.ident?, show T.passes x = false from hx,
        show T.passes x' = false from hx']

mutual

theorem Expr.keepsIdents : (e : Expr) → (r : LocalNames) → T.Hides r →
    KeepsIdents T e.walk (e.renameLocal ρ r).1.walk (e.renameLocal ρ r).2
  | .mk id span form, r, h => form.keepsIdents id span r h

theorem ExprForm.keepsIdents : (form : ExprForm) → (id : ExprId) → (span : Span) →
    (r : LocalNames) → T.Hides r →
    KeepsIdents T (Expr.mk id span form).walk (Expr.mk id span (form.renameLocal ρ r).1).walk
      (form.renameLocal ρ r).2
  | .int _ _, _, _, _, h | .float _ _, _, _, _, h | .bool _, _, _, _, h | .char _, _, _, _, h
  | .string _, _, _, _, h | .unit, _, _, _, h => ⟨rfl, h⟩
  | .ident name, _, _, _, h => keepsIdents_ident name h
  | .call callee args, _, _, r, h =>
    (callee.keepsIdents r h).append (allKeepIdents args _)
  | .binary _ left right, _, _, r, h | .assign left right, _, _, r, h
  | .loop left right, _, _, r, h | .ifThen left right, _, _, r, h =>
    (left.keepsIdents r h).append (right.keepsIdents _)
  | .unary _ operand, _, _, r, h | .field operand _, _, _, r, h | .ascribe operand _, _, _, r, h =>
    operand.keepsIdents r h
  | .define name _ init, _, _, r, h =>
    have hinit := init.keepsIdents r h
    ⟨hinit.1, hides_bindName name hinit.2⟩
  | .construct _ items, _, _, r, h | .tuple items, _, _, r, h | .array items, _, _, r, h =>
    allKeepIdents items r h
  | .block items, _, _, r, h => ⟨(allKeepIdents items r.enter h).1, h⟩
  | .ifElse condition thenBranch elseBranch, _, _, r, h =>
    ((condition.keepsIdents r h).append (thenBranch.keepsIdents _)).append
      (elseBranch.keepsIdents _)
  | .select scrutinee arms, _, _, r, h =>
    (scrutinee.keepsIdents r h).append (armsKeepIdents arms _)
  | .lambda params body, _, _, r, h =>
    have hparams := hides_bindParams params (r := r.enter) h
    ⟨idents_params_append (body.keepsIdents _ hparams).1, h⟩

theorem allKeepIdents : (es : List Expr) → (r : LocalNames) → T.Hides r →
    KeepsIdents T (walkExprs es) (walkExprs (renameLocals ρ es r).1) (renameLocals ρ es r).2
  | [], _, h => ⟨rfl, h⟩
  | e :: rest, r, h => (e.keepsIdents r h).append (allKeepIdents rest _)

theorem armsKeepIdents : (arms : List Arm) → (r : LocalNames) → T.Hides r →
    KeepsIdents T (walkArms arms) (walkArms (renameArmLocals ρ arms r).1)
      (renameArmLocals ρ arms r).2
  | [], _, h => ⟨rfl, h⟩
  | .mk pattern body _ :: rest, r, h => by
    have harm := (pattern.keepsIdents r.enter h).append (body.keepsIdents _)
    refine KeepsIdents.append ?_ (armsKeepIdents rest _)
    exact ⟨harm.1, h⟩

theorem Pattern.keepsIdents : (p' : Pattern) → (r : LocalNames) → T.Hides r →
    KeepsIdents T p'.walk (p'.renameLocal ρ r).1.walk (p'.renameLocal ρ r).2
  | .wildcard _, _, h => ⟨rfl, h⟩
  | .binding _ name, _, h => ⟨rfl, hides_bindName name h⟩
  | .literal _ expr, r, h => expr.keepsIdents r h
  | .tuple _ items, r, h => patternsKeepIdents items.length items r h
  | .tag _ name items, r, h => patternsKeepIdents ((ρ.fields? name).getD 0) items r h

theorem patternsKeepIdents : (n : Nat) → (ps : List Pattern) → (r : LocalNames) →
    T.Hides r → KeepsIdents T (walkPatterns ps)
      (walkPatterns (renamePatternLocals ρ n ps r).1) (renamePatternLocals ρ n ps r).2
  | 0, [], _, h | _ + 1, [], _, h => ⟨rfl, h⟩
  | 0, p' :: rest, r, h => by
    refine KeepsIdents.append ?_ (patternsKeepIdents 0 rest _)
    exact ⟨(p'.keepsIdents r h).1, h⟩
  | n + 1, p' :: rest, r, h => (p'.keepsIdents r h).append (patternsKeepIdents n rest _)

end

theorem FunctionDecl.idents_renameLocal (f : FunctionDecl) :
    T.idents (f.renameLocal ρ).walk = T.idents f.walk := by
  have hstart : T.Hides (LocalNames.enter {}) := fun _ hq => by cases hq
  have hbody : T.idents (((f.renameLocal ρ).body.map Expr.walk).getD []) =
      T.idents ((f.body.map Expr.walk).getD []) := by
    show T.idents (((f.body.map _).map Expr.walk).getD []) = _
    cases f.body with
    | none => rfl
    | some body => exact (body.keepsIdents _ (hides_bindParams f.params hstart)).1
  exact idents_params_append hbody

/-! ## The groups -/

/-- What is picked from a list without repetitions is what is picked, without repetitions. -/
theorem filter_eraseDups {α : Type} [BEq α] [LawfulBEq α] (p : α → Bool) :
    (l : List α) → l.eraseDups.filter p = (l.filter p).eraseDups
  | [] => rfl
  | a :: l => by
    rw [List.eraseDups_cons, List.filter_cons, List.filter_cons, filter_eraseDups,
      List.filter_filter]
    split
    · rw [List.eraseDups_cons, List.filter_filter]
      simp only [Bool.and_comm]
    · next hp =>
      refine congrArg _ (List.filter_congr fun b _ => ?_)
      by_cases hb : b = a
      · simpa [hb] using hp
      · simp [hb]
termination_by l => l.length
decreasing_by exact Nat.lt_succ_of_le (List.length_filter_le _ l)

namespace Module

variable {m : Module} {fields? : Name → Option Nat} {i binder : Nat} {old name : Name}

/-- The groups stay if neither name of the binder is that of a function with a body. -/
theorem bodyGroups_renameLocal (hold : m.bodyIndex? old = none) (hname : m.bodyIndex? name = none) :
    (m.renameLocal fields? i binder old name).bodyGroups = m.bodyGroups := by
  let T : NameTest ⟨binder, old, name, fields?⟩ := {
    passes := fun n => (m.bodyIndex? n).isSome
    old := by rw [hold]; rfl
    name := by rw [hname]; rfl }
  have hcallees : ∀ f : FunctionDecl, f.references.filterMap m.bodyIndex? =
      (T.idents f.walk).eraseDups.filterMap m.bodyIndex? := fun f => by
    rw [f.references_eq, NameTest.idents, ← filter_eraseDups, List.filterMap_filter]
    refine List.filterMap_congr fun n _ => ?_
    show m.bodyIndex? n = if (m.bodyIndex? n).isSome then m.bodyIndex? n else none
    cases m.bodyIndex? n <;> rfl
  refine bodyGroups_congr (map_modify_of_eq (fun f => ?_) m.functions i)
    (map_modify_of_eq (fun f => ?_) m.functions i)
  · exact congrArg (f.name, ·) Option.isSome_map
  · rw [hcallees, hcallees, FunctionDecl.idents_renameLocal]

end Module

end ConstraintTyping
