import ConstraintTyping.Proofs.Check.Components
import Mathlib.Data.List.Pairwise

/-!
# References between functions

The groups in which bodies are checked are the strongly connected components of the references
between functions.  What a body refers to is said here by itself: a name occurs in an expression when
the expression is that name, or when the name occurs in one of its parts.
-/

namespace ConstraintTyping

mutual

/-- The literals in a pattern. -/
def Pattern.literals : Pattern → List Expr
  | .wildcard _ | .binding _ _ => []
  | .literal _ expr => [expr]
  | .tuple _ items | .tag _ _ items => patternLiterals items

/-- The literals in a list of patterns. -/
def patternLiterals : List Pattern → List Expr
  | [] => []
  | p :: rest => p.literals ++ patternLiterals rest

end

/-- The expressions directly below an arm: the literals of its pattern, and its body. -/
def Arm.parts : Arm → List Expr
  | .mk pattern body _ => pattern.literals ++ [body]

/-- The expressions directly below an expression. -/
def ExprForm.parts : ExprForm → List Expr
  | .int _ _ | .float _ _ | .bool _ | .char _ | .string _ | .unit | .ident _ => []
  | .unary _ e | .field e _ | .define _ _ e | .ascribe e _ | .lambda _ e => [e]
  | .binary _ l r | .assign l r | .loop l r | .ifThen l r => [l, r]
  | .ifElse condition thenBranch elseBranch => [condition, thenBranch, elseBranch]
  | .call callee args => callee :: args
  | .construct _ items | .tuple items | .array items | .block items => items
  | .select scrutinee arms => scrutinee :: arms.flatMap Arm.parts

namespace Expr

/-- An expression is another one, or lies somewhere below it. -/
inductive Occurs (e : Expr) : Expr → Prop
  | here : e.Occurs e
  | inPart {part whole : Expr} : part ∈ whole.form.parts → e.Occurs part → e.Occurs whole

/-- A name stands somewhere in an expression. -/
def Mentions (e : Expr) (name : Name) : Prop := ∃ e' : Expr, e'.Occurs e ∧ e'.form = .ident name

end Expr

namespace Module

/-- A function is the first of its name, and it has a body. -/
structure Defines (m : Module) (i : Nat) (f : FunctionDecl) : Prop where
  at_index : m.functions[i]? = some f
  has_body : f.body.isSome
  first : ∀ j < i, ∀ g, m.functions[j]? = some g → g.name ≠ f.name

/-- The name of one function stands in the body of another; both are the first of their names. -/
def RefersTo (m : Module) (i j : Nat) : Prop :=
  ∃ f g body, m.Defines i f ∧ m.Defines j g ∧ f.body = some body ∧ body.Mentions g.name

end Module

/-! ## Walks -/

theorem filterMap_walkExprs (es : List Expr) :
    (walkExprs es).filterMap TreeNode.expr? = es.flatMap Expr.subexprs := by
  induction es with
  | nil => rfl
  | cons e es ih => rw [walkExprs, List.filterMap_append, ih, List.flatMap_cons, Expr.subexprs]

mutual

theorem Pattern.filterMap_walk : (p : Pattern) →
    p.walk.filterMap TreeNode.expr? = p.literals.flatMap Expr.subexprs
  | .wildcard _ | .binding _ _ => rfl
  | .literal _ _ => (List.append_nil _).symm
  | .tuple _ items | .tag _ _ items => filterMap_walkPatterns items

theorem filterMap_walkPatterns : (ps : List Pattern) →
    (walkPatterns ps).filterMap TreeNode.expr? = (patternLiterals ps).flatMap Expr.subexprs
  | [] => rfl
  | p :: ps => by
    rw [walkPatterns, patternLiterals, List.filterMap_append, List.flatMap_append,
      p.filterMap_walk, filterMap_walkPatterns ps]

end

theorem filterMap_walkArms (arms : List Arm) :
    (walkArms arms).filterMap TreeNode.expr? =
      (arms.flatMap Arm.parts).flatMap Expr.subexprs := by
  induction arms with
  | nil => rfl
  | cons arm arms ih =>
    obtain ⟨p, body, span⟩ := arm
    rw [walkArms, List.filterMap_cons_none rfl, List.filterMap_append, List.filterMap_append, ih,
      p.filterMap_walk, List.flatMap_cons, List.flatMap_append, Arm.parts, List.flatMap_append,
      List.flatMap_singleton, Expr.subexprs]

theorem filterMap_params (params : List Param) :
    (params.map TreeNode.param).filterMap TreeNode.expr? = [] := by
  induction params with
  | nil => rfl
  | cons p params ih => exact ih

/-- The expressions of a tree are its root and those of the parts of its root. -/
theorem Expr.subexprs_eq (e : Expr) : e.subexprs = e :: e.form.parts.flatMap Expr.subexprs := by
  obtain ⟨id, span, form⟩ := e
  show Expr.mk id span form :: form.walkParts.filterMap TreeNode.expr? = _
  congr 1
  cases form <;>
    simp only [ExprForm.walkParts, ExprForm.parts, Expr.form, List.filterMap_append,
      filterMap_walkExprs, filterMap_walkArms, filterMap_params, List.flatMap_cons,
      List.flatMap_nil, List.append_nil, List.nil_append, List.append_assoc] <;>
    rfl

theorem Expr.length_subexprs_lt {part whole : Expr} (h : part ∈ whole.form.parts) :
    part.subexprs.length < whole.subexprs.length := by
  rw [whole.subexprs_eq, List.length_cons, Nat.lt_succ_iff]
  obtain ⟨before, after, hparts⟩ := List.append_of_mem h
  rw [hparts, List.flatMap_append, List.flatMap_cons]
  simp only [List.length_append]
  omega

/-- A walk comes by exactly the expressions that occur in the tree. -/
theorem Expr.mem_subexprs {e whole : Expr} : e ∈ whole.subexprs ↔ e.Occurs whole := by
  constructor
  · intro h
    rw [whole.subexprs_eq, List.mem_cons] at h
    rcases h with rfl | h
    · exact .here
    · obtain ⟨part, hpart, hmem⟩ := List.mem_flatMap.mp h
      have := Expr.length_subexprs_lt hpart
      exact .inPart hpart (mem_subexprs.mp hmem)
  · intro h
    induction h with
    | here =>
      rw [e.subexprs_eq]
      exact List.mem_cons_self
    | @inPart part whole hpart _ ih =>
      rw [whole.subexprs_eq]
      exact List.mem_cons_of_mem _ (List.mem_flatMap.mpr ⟨part, hpart, ih⟩)
termination_by whole.subexprs.length

theorem FunctionDecl.subexprs_eq (f : FunctionDecl) :
    f.subexprs = (f.body.map Expr.subexprs).getD [] := by
  rw [FunctionDecl.subexprs, FunctionDecl.walk, List.filterMap_append,
    List.filterMap_cons_none rfl, filterMap_params, List.nil_append]
  cases f.body <;> rfl

theorem FunctionDecl.mem_references {f : FunctionDecl} {name : Name} :
    name ∈ f.references ↔ ∃ body, f.body = some body ∧ body.Mentions name := by
  rw [FunctionDecl.references, List.mem_eraseDups, List.mem_filterMap, f.subexprs_eq]
  constructor
  · rintro ⟨e, he, hname⟩
    cases hbody : f.body with
    | none =>
      rw [hbody] at he
      cases he
    | some body =>
      rw [hbody] at he
      refine ⟨body, rfl, e, Expr.mem_subexprs.mp he, ?_⟩
      split at hname
      · next name' hform => rw [hform, Option.some.inj hname]
      · cases hname
  · rintro ⟨body, hbody, e, he, hform⟩
    refine ⟨e, ?_, by rw [hform]⟩
    rw [hbody]
    exact Expr.mem_subexprs.mpr he

/-! ## Functions with bodies -/

namespace Module

variable {m : Module} {name : Name} {i j : Nat} {f : FunctionDecl}

theorem firstIndex?_eq_some : m.firstIndex? name = some i ↔
    ∃ f, m.functions[i]? = some f ∧ f.name = name ∧
      ∀ j < i, ∀ g, m.functions[j]? = some g → g.name ≠ name := by
  rw [firstIndex?, List.findIdx?_eq_some_iff_getElem]
  constructor
  · rintro ⟨hi, hname, hfirst⟩
    refine ⟨m.functions[i], List.getElem?_eq_getElem hi, by simpa using hname, fun j hj g hg => ?_⟩
    obtain ⟨hlt, rfl⟩ := List.getElem?_eq_some_iff.mp hg
    simpa using hfirst j hj
  · rintro ⟨f, hf, hname, hfirst⟩
    obtain ⟨hi, rfl⟩ := List.getElem?_eq_some_iff.mp hf
    refine ⟨hi, by simpa using hname, fun j hj => ?_⟩
    simpa using hfirst j hj _ (List.getElem?_eq_getElem (hj.trans hi))

theorem bodyIndex?_eq_some :
    m.bodyIndex? name = some i ↔ ∃ f, m.Defines i f ∧ f.name = name := by
  rw [bodyIndex?, Option.filter_eq_some_iff, firstIndex?_eq_some]
  constructor
  · rintro ⟨⟨f, hf, rfl, hfirst⟩, hbody⟩
    rw [hf, Option.any_some] at hbody
    exact ⟨f, ⟨hf, hbody, hfirst⟩, rfl⟩
  · rintro ⟨f, hf, rfl⟩
    refine ⟨⟨f, hf.at_index, rfl, hf.first⟩, ?_⟩
    rw [hf.at_index, Option.any_some]
    exact hf.has_body

theorem mem_bodyIndices : i ∈ m.bodyIndices ↔ ∃ f, m.Defines i f := by
  simp only [bodyIndices, List.mem_map, List.mem_filter, decide_eq_true_eq, Prod.exists,
    exists_eq_right, List.mem_zipIdx_iff_getElem?, bodyIndex?_eq_some]
  constructor
  · rintro ⟨_, _, f, hf, _⟩
    exact ⟨f, hf⟩
  · rintro ⟨f, hf⟩
    exact ⟨f, hf.at_index, f, hf, rfl⟩

theorem sublist_bodyIndices (m : Module) : m.bodyIndices.Sublist (List.range m.functions.length) := by
  have hsub := (List.filter_sublist (p := fun q => m.bodyIndex? q.1.name = some q.2)
    (l := m.functions.zipIdx)).map Prod.snd
  rwa [List.zipIdx_map_snd, ← List.range_eq_range'] at hsub

theorem mem_callees (h : m.Defines i f) :
    j ∈ m.callGraph.callees i ↔ m.RefersTo i j := by
  have hcallees : m.callGraph.callees i = f.references.filterMap m.bodyIndex? := by
    simp [callGraph, Array.getD_eq_getD_getElem?, h.at_index]
  simp only [hcallees, List.mem_filterMap, FunctionDecl.mem_references, bodyIndex?_eq_some]
  constructor
  · rintro ⟨_, ⟨body, hbody, hmention⟩, g, hg, rfl⟩
    exact ⟨f, g, body, h, hg, hbody, hmention⟩
  · rintro ⟨f', g, body, hf, hg, hbody, hmention⟩
    obtain rfl : f = f' := Option.some.inj (h.at_index.symm.trans hf.at_index)
    exact ⟨g.name, ⟨body, hbody, hmention⟩, g, hg, rfl⟩

/-- Ways in the graph lead along references. -/
theorem reaches_iff (h : m.Defines i f) :
    m.callGraph.Reaches i j ↔ Relation.ReflTransGen m.RefersTo i j := by
  constructor
  · intro hij
    induction hij using Relation.ReflTransGen.head_induction_on generalizing f with
    | refl => exact .refl
    | head hedge _ ih =>
      have hrefers := (mem_callees h).mp hedge
      obtain ⟨_, g, _, _, hg, _⟩ := id hrefers
      exact .head hrefers (ih hg)
  · refine Relation.ReflTransGen.mono (fun u v huv => ?_) i j
    obtain ⟨f, _, _, hf, _⟩ := id huv
    exact (mem_callees hf).mpr huv

/-- The groups are the components of the call graph, and they hold the functions with bodies. -/
theorem components_bodyGroups (m : Module) :
    m.callGraph.Components m.bodyGroups ∧ m.bodyGroups.flatten.Perm m.bodyIndices := by
  have hnodup : m.bodyIndices.Nodup := m.sublist_bodyIndices.nodup List.nodup_range
  have hsize : m.bodyIndices.length ≤ m.callGraph.size := by
    simpa [callGraph] using m.sublist_bodyIndices.length_le
  have hclosed : ∀ u ∈ m.bodyIndices, ∀ w, m.callGraph.Edge u w → w ∈ m.bodyIndices := by
    intro u hu w hedge
    obtain ⟨f, hf⟩ := mem_bodyIndices.mp hu
    obtain ⟨_, g, _, _, hg, _⟩ := (mem_callees hf).mp hedge
    exact mem_bodyIndices.mpr ⟨g, hg⟩
  exact CallGraph.components_groups hnodup hsize hclosed

theorem nodup_flatten_bodyGroups (m : Module) : m.bodyGroups.flatten.Nodup :=
  m.components_bodyGroups.2.nodup_iff.mpr (m.sublist_bodyIndices.nodup List.nodup_range)

theorem mem_flatten_bodyGroups : i ∈ m.bodyGroups.flatten ↔ ∃ f, m.Defines i f :=
  m.components_bodyGroups.2.mem_iff.trans mem_bodyIndices

theorem nodup_bodyGroups (m : Module) : m.bodyGroups.Nodup := by
  have hnodup := (List.nodup_flatten.mp m.nodup_flatten_bodyGroups).2
  refine hnodup.imp_of_mem fun {G H} hG _ hdisjoint heq => ?_
  obtain ⟨i, hi⟩ := List.exists_mem_of_ne_nil G (m.components_bodyGroups.1.nonempty G hG)
  exact hdisjoint hi (heq ▸ hi)

/-- No position is in two groups. -/
theorem eq_of_mem_bodyGroups {G H : List Nat} (hG : G ∈ m.bodyGroups) (hH : H ∈ m.bodyGroups)
    (hi : i ∈ G) (hi' : i ∈ H) : G = H := by
  by_contra hne
  have hpairs := (List.nodup_flatten.mp m.nodup_flatten_bodyGroups).2
  have hsymm : Std.Symm (@List.Disjoint Nat) := ⟨fun _ _ h _ hb ha => h ha hb⟩
  exact hpairs.forall hG hH hne hi hi'

/-- A reference leads into the same group or an earlier one. -/
theorem mem_of_refersTo {before after : List (List Nat)} {G : List Nat}
    (h : m.bodyGroups = before ++ G :: after) (hi : i ∈ G) (hrefers : m.RefersTo i j) :
    j ∈ G ∨ j ∈ before.flatten := by
  obtain ⟨f, _, _, hf, _⟩ := id hrefers
  exact (m.components_bodyGroups.1.ordered h i hi j ((mem_callees hf).mpr hrefers)).symm

/-- Bodies are grouped into the strongly connected components of the references between them: every
function that is the first of its name and has a body is in one group; two are in the same one exactly
when each reaches the other; each group is ascending; and a reference leads into the same group or an
earlier one. -/
theorem bodyGroups_components (m : Module) :
    m.bodyGroups.flatten.Nodup ∧
    (∀ i, i ∈ m.bodyGroups.flatten ↔ ∃ f, m.Defines i f) ∧
    (∀ G ∈ m.bodyGroups, G ≠ [] ∧ G.Pairwise (· < ·)) ∧
    (∀ i ∈ m.bodyGroups.flatten, ∀ j ∈ m.bodyGroups.flatten,
      (∃ G ∈ m.bodyGroups, i ∈ G ∧ j ∈ G) ↔
        Relation.ReflTransGen m.RefersTo i j ∧ Relation.ReflTransGen m.RefersTo j i) ∧
    (∀ before G after, m.bodyGroups = before ++ G :: after →
      ∀ i ∈ G, ∀ j, m.RefersTo i j → j ∈ G ∨ j ∈ before.flatten) := by
  have hcomponents := m.components_bodyGroups.1
  refine ⟨m.nodup_flatten_bodyGroups, fun i => mem_flatten_bodyGroups,
    fun G hG => ⟨hcomponents.nonempty G hG, ?_⟩, fun i hi j hj => ?_,
    fun _ _ _ hsplit i hi j hrefers => mem_of_refersTo hsplit hi hrefers⟩
  · have hG' : G.Nodup := (List.nodup_flatten.mp m.nodup_flatten_bodyGroups).1 G hG
    exact (hcomponents.ascending G hG).imp₂ (fun _ _ hle hne => lt_of_le_of_ne hle hne) hG'
  · obtain ⟨f, hf⟩ := mem_flatten_bodyGroups.mp hi
    obtain ⟨g, hg⟩ := mem_flatten_bodyGroups.mp hj
    rw [← reaches_iff hf, ← reaches_iff hg]
    exact hcomponents.together_iff m.nodup_flatten_bodyGroups hi hj

end Module

end ConstraintTyping
