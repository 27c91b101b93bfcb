import ConstraintTyping.Infer.Coverage
import ConstraintTyping.Proofs.Infer.Typing
import ConstraintTyping.Proofs.Types.Growth
import ConstraintTyping.Tree.Walk

/-!
# Other names for written type variables

A function is renamed by giving other names to the type variables that are written in it.  Nothing
else of the tree changes: numbers, places, references and the form of patterns are the same.
-/

namespace ConstraintTyping

/-! ## Written types -/

mutual

/-- A written type with other names for its variables. -/
def TypeExpr.renameVars (ρ : Name → Name) : TypeExpr → TypeExpr
  | .named name args => .named name (renameTypes ρ args)
  | .var name => .var (ρ name)
  | .pointer target => .pointer (target.renameVars ρ)
  | .array elem length => .array (elem.renameVars ρ) length
  | .tuple items => .tuple (renameTypes ρ items)
  | .function params ret => .function (renameTypes ρ params) (ret.renameVars ρ)
  | .qualified qualifier base => .qualified qualifier (base.renameVars ρ)

/-- Written types with other names for their variables. -/
def renameTypes (ρ : Name → Name) : List TypeExpr → List TypeExpr
  | [] => []
  | t :: rest => t.renameVars ρ :: renameTypes ρ rest

end

mutual

/-- The variables that stand in a written type. -/
def TypeExpr.varNames : TypeExpr → List Name
  | .named _ args => varNamesOf args
  | .var name => [name]
  | .pointer target => target.varNames
  | .array elem _ => elem.varNames
  | .tuple items => varNamesOf items
  | .function params ret => varNamesOf params ++ ret.varNames
  | .qualified _ base => base.varNames

/-- The variables that stand in written types. -/
def varNamesOf : List TypeExpr → List Name
  | [] => []
  | t :: rest => t.varNames ++ varNamesOf rest

end

variable {ρ : Name → Name}

theorem renameTypes_eq_map (ρ : Name → Name) (ts : List TypeExpr) :
    renameTypes ρ ts = ts.map (TypeExpr.renameVars ρ) := by
  induction ts with
  | nil => rfl
  | cons t rest ih => rw [renameTypes, ih, List.map_cons]

theorem mem_varNamesOf {name : Name} {ts : List TypeExpr} :
    name ∈ varNamesOf ts ↔ ∃ t ∈ ts, name ∈ t.varNames := by
  induction ts with
  | nil => simp [varNamesOf]
  | cons t rest ih => rw [varNamesOf, List.mem_append, ih, List.exists_mem_cons_iff]

/-- A written type stays as it is when the names of its variables do. -/
theorem TypeExpr.renameVars_eq_self (t : TypeExpr) (h : ∀ name ∈ t.varNames, ρ name = name) :
    t.renameVars ρ = t := by
  have hlist : ∀ ts : List TypeExpr,
      (∀ t ∈ ts, (∀ name ∈ t.varNames, ρ name = name) → t.renameVars ρ = t) →
      (∀ name ∈ varNamesOf ts, ρ name = name) → renameTypes ρ ts = ts := by
    intro ts hts h
    rw [renameTypes_eq_map]
    refine (List.map_congr_left fun t ht => hts t ht fun name hname => ?_).trans (List.map_id ts)
    exact h name (mem_varNamesOf.mpr ⟨t, ht, hname⟩)
  induction t using TypeExpr.induction with
  | named name args ih => rw [renameVars, hlist args ih h]
  | var name => rw [renameVars, h name (List.mem_singleton_self name)]
  | pointer target ih => rw [renameVars, ih h]
  | array elem length ih => rw [renameVars, ih h]
  | tuple items ih => rw [renameVars, hlist items ih h]
  | function params ret ihs ih =>
    rw [renameVars, hlist params ihs fun name hname => h name (List.mem_append_left _ hname),
      ih fun name hname => h name (List.mem_append_right _ hname)]
  | qualified q base ih => rw [renameVars, ih h]

/-! ## Trees -/

/-- A parameter with other names for the type variables written in it. -/
def Param.renameVars (ρ : Name → Name) (p : Param) : Param :=
  { p with written := p.written.map (TypeExpr.renameVars ρ) }

mutual

/-- An expression with other names for the type variables written in it. -/
def Expr.renameVars (ρ : Name → Name) : Expr → Expr
  | .mk id span form => .mk id span (form.renameVars ρ)

/-- What an expression is, with other names for the type variables written in it. -/
def ExprForm.renameVars (ρ : Name → Name) : ExprForm → ExprForm
  | .int value suffix => .int value suffix
  | .float bits suffix => .float bits suffix
  | .bool value => .bool value
  | .char value => .char value
  | .string value => .string value
  | .unit => .unit
  | .ident name => .ident name
  | .call callee args => .call (callee.renameVars ρ) (renameExprs ρ args)
  | .binary op left right => .binary op (left.renameVars ρ) (right.renameVars ρ)
  | .unary op operand => .unary op (operand.renameVars ρ)
  | .field receiver name => .field (receiver.renameVars ρ) name
  | .construct name args => .construct name (renameExprs ρ args)
  | .tuple items => .tuple (renameExprs ρ items)
  | .array items => .array (renameExprs ρ items)
  | .block items => .block (renameExprs ρ items)
  | .ifThen condition thenBranch => .ifThen (condition.renameVars ρ) (thenBranch.renameVars ρ)
  | .ifElse condition thenBranch elseBranch =>
    .ifElse (condition.renameVars ρ) (thenBranch.renameVars ρ) (elseBranch.renameVars ρ)
  | .select scrutinee arms => .select (scrutinee.renameVars ρ) (renameArms ρ arms)
  | .loop condition body => .loop (condition.renameVars ρ) (body.renameVars ρ)
  | .define name written init =>
    .define name (written.map (TypeExpr.renameVars ρ)) (init.renameVars ρ)
  | .assign target value => .assign (target.renameVars ρ) (value.renameVars ρ)
  | .ascribe expr written => .ascribe (expr.renameVars ρ) (written.renameVars ρ)
  | .lambda params body => .lambda (params.map (Param.renameVars ρ)) (body.renameVars ρ)

/-- Expressions with other names for the type variables written in them. -/
def renameExprs (ρ : Name → Name) : List Expr → List Expr
  | [] => []
  | e :: rest => e.renameVars ρ :: renameExprs ρ rest

/-- Arms with other names for the type variables written in them. -/
def renameArms (ρ : Name → Name) : List Arm → List Arm
  | [] => []
  | .mk pattern body span :: rest =>
    .mk (pattern.renameVars ρ) (body.renameVars ρ) span :: renameArms ρ rest

/-- A pattern with other names for the type variables written in its literals. -/
def Pattern.renameVars (ρ : Name → Name) : Pattern → Pattern
  | .wildcard id => .wildcard id
  | .binding id name => .binding id name
  | .literal id expr => .literal id (expr.renameVars ρ)
  | .tuple id items => .tuple id (renamePatterns ρ items)
  | .tag id name items => .tag id name (renamePatterns ρ items)

/-- Patterns with other names for the type variables written in their literals. -/
def renamePatterns (ρ : Name → Name) : List Pattern → List Pattern
  | [] => []
  | p :: rest => p.renameVars ρ :: renamePatterns ρ rest

end

@[simp] theorem Expr.span_renameVars (e : Expr) : (e.renameVars ρ).span = e.span := by
  cases e; rfl

@[simp] theorem Expr.id_renameVars (e : Expr) : (e.renameVars ρ).id = e.id := by
  cases e; rfl

theorem renameExprs_eq_map (ρ : Name → Name) (es : List Expr) :
    renameExprs ρ es = es.map (Expr.renameVars ρ) := by
  induction es with
  | nil => rfl
  | cons e rest ih => rw [renameExprs, ih, List.map_cons]

@[simp] theorem length_renameExprs (es : List Expr) : (renameExprs ρ es).length = es.length := by
  rw [renameExprs_eq_map, List.length_map]

theorem spans_renameExprs (es : List Expr) :
    (renameExprs ρ es).map Expr.span = es.map Expr.span := by
  rw [renameExprs_eq_map, List.map_map]
  exact List.map_congr_left fun e _ => e.span_renameVars

theorem renamePatterns_eq_map (ρ : Name → Name) (ps : List Pattern) :
    renamePatterns ρ ps = ps.map (Pattern.renameVars ρ) := by
  induction ps with
  | nil => rfl
  | cons p rest ih => rw [renamePatterns, ih, List.map_cons]

@[simp] theorem length_renamePatterns (ps : List Pattern) :
    (renamePatterns ρ ps).length = ps.length := by
  rw [renamePatterns_eq_map, List.length_map]

theorem patterns_renameArms (arms : List Arm) :
    (renameArms ρ arms).map Arm.pattern = renamePatterns ρ (arms.map Arm.pattern) := by
  induction arms with
  | nil => rfl
  | cons arm rest ih =>
    obtain ⟨pattern, body, span⟩ := arm
    rw [renameArms, List.map_cons, List.map_cons, renamePatterns, ih]
    rfl

/-- A function with other names for the type variables written in it. -/
def FunctionDecl.renameVars (ρ : Name → Name) (f : FunctionDecl) : FunctionDecl :=
  { f with
    params := f.params.map (Param.renameVars ρ)
    ret := f.ret.map (TypeExpr.renameVars ρ)
    given := f.given.map fun bound => { bound with args := renameTypes ρ bound.args }
    body := f.body.map (Expr.renameVars ρ) }

/-! ## No other names -/

theorem TypeExpr.renameVars_id (t : TypeExpr) : t.renameVars id = t :=
  t.renameVars_eq_self fun _ _ => rfl

theorem renameTypes_id (ts : List TypeExpr) : renameTypes id ts = ts := by
  rw [renameTypes_eq_map]
  exact (List.map_congr_left fun t _ => t.renameVars_id).trans (List.map_id ts)

theorem Param.renameVars_id (p : Param) : p.renameVars id = p := by
  obtain ⟨name, written, span⟩ := p
  cases written with
  | none => rfl
  | some t => simp only [Param.renameVars, Option.map_some, t.renameVars_id]

theorem params_renameVars_id (ps : List Param) : ps.map (Param.renameVars id) = ps :=
  (List.map_congr_left fun p _ => p.renameVars_id).trans (List.map_id ps)

mutual

theorem Expr.renameVars_id : (e : Expr) → e.renameVars id = e
  | .mk eid span form => by rw [Expr.renameVars, form.renameVars_id]

theorem ExprForm.renameVars_id : (form : ExprForm) → form.renameVars id = form
  | .int _ _ | .float _ _ | .bool _ | .char _ | .string _ | .unit | .ident _ => rfl
  | .call callee args => by rw [ExprForm.renameVars, callee.renameVars_id, renameExprs_id args]
  | .binary _ left right | .assign left right | .loop left right | .ifThen left right => by
    rw [ExprForm.renameVars, left.renameVars_id, right.renameVars_id]
  | .unary _ operand | .field operand _ => by rw [ExprForm.renameVars, operand.renameVars_id]
  | .construct _ items | .tuple items | .array items | .block items => by
    rw [ExprForm.renameVars, renameExprs_id items]
  | .ifElse condition thenBranch elseBranch => by
    rw [ExprForm.renameVars, condition.renameVars_id, thenBranch.renameVars_id,
      elseBranch.renameVars_id]
  | .select scrutinee arms => by
    rw [ExprForm.renameVars, scrutinee.renameVars_id, renameArms_id arms]
  | .define _ written init => by
    rw [ExprForm.renameVars, init.renameVars_id]
    cases written with
    | none => rfl
    | some t => rw [Option.map_some, t.renameVars_id]
  | .ascribe expr written => by
    rw [ExprForm.renameVars, expr.renameVars_id, written.renameVars_id]
  | .lambda params body => by
    rw [ExprForm.renameVars, body.renameVars_id, params_renameVars_id]

theorem renameExprs_id : (es : List Expr) → renameExprs id es = es
  | [] => rfl
  | e :: rest => by rw [renameExprs, e.renameVars_id, renameExprs_id rest]

theorem renameArms_id : (arms : List Arm) → renameArms id arms = arms
  | [] => rfl
  | .mk pattern body span :: rest => by
    rw [renameArms, pattern.renameVars_id, body.renameVars_id, renameArms_id rest]

theorem Pattern.renameVars_id : (p : Pattern) → p.renameVars id = p
  | .wildcard _ | .binding _ _ => rfl
  | .literal _ expr => by rw [Pattern.renameVars, expr.renameVars_id]
  | .tuple _ items | .tag _ _ items => by rw [Pattern.renameVars, renamePatterns_id items]

theorem renamePatterns_id : (ps : List Pattern) → renamePatterns id ps = ps
  | [] => rfl
  | p :: rest => by rw [renamePatterns, p.renameVars_id, renamePatterns_id rest]

end

theorem FunctionDecl.renameVars_id (f : FunctionDecl) : f.renameVars id = f := by
  obtain ⟨name, params, ret, given, isMeta, isVariadic, body, span⟩ := f
  have htype : TypeExpr.renameVars id = id := funext TypeExpr.renameVars_id
  have hexpr : Expr.renameVars id = id := funext Expr.renameVars_id
  have hbound : (fun bound : TraitRef => { bound with args := renameTypes id bound.args }) = id :=
    funext fun bound => by rw [renameTypes_id]; rfl
  simp only [FunctionDecl.renameVars, params_renameVars_id, htype, hexpr, hbound, Option.map_id,
    List.map_id, id]

/-! ## The nodes of a renamed tree -/

/-- A node with other names for the type variables written at it and below it. -/
def TreeNode.renameVars (ρ : Name → Name) : TreeNode → TreeNode
  | .function f => .function (f.renameVars ρ)
  | .param p => .param (p.renameVars ρ)
  | .expr e => .expr (e.renameVars ρ)
  | .arm (.mk p body span) => .arm (.mk (p.renameVars ρ) (body.renameVars ρ) span)
  | .pattern p => .pattern (p.renameVars ρ)

mutual

theorem Expr.walk_renameVars : (e : Expr) →
    (e.renameVars ρ).walk = e.walk.map (TreeNode.renameVars ρ)
  | .mk id span form => by
    rw [Expr.renameVars, Expr.walk, Expr.walk, form.walkParts_renameVars, List.map_cons]
    rfl

theorem ExprForm.walkParts_renameVars : (form : ExprForm) →
    (form.renameVars ρ).walkParts = form.walkParts.map (TreeNode.renameVars ρ)
  | .int _ _ | .float _ _ | .bool _ | .char _ | .string _ | .unit | .ident _ => rfl
  | .unary _ operand => operand.walk_renameVars
  | .field receiver _ => receiver.walk_renameVars
  | .define _ _ init => init.walk_renameVars
  | .ascribe expr _ => expr.walk_renameVars
  | .binary _ left right | .assign left right | .loop left right | .ifThen left right => by
    simp only [ExprForm.renameVars, ExprForm.walkParts, List.map_append, left.walk_renameVars,
      right.walk_renameVars]
  | .ifElse condition thenBranch elseBranch => by
    simp only [ExprForm.renameVars, ExprForm.walkParts, List.map_append, condition.walk_renameVars,
      thenBranch.walk_renameVars, elseBranch.walk_renameVars]
  | .call callee args => by
    simp only [ExprForm.renameVars, ExprForm.walkParts, List.map_append, callee.walk_renameVars,
      walkExprs_renameExprs args]
  | .construct _ items | .tuple items | .array items | .block items => walkExprs_renameExprs items
  | .select scrutinee arms => by
    simp only [ExprForm.renameVars, ExprForm.walkParts, List.map_append, scrutinee.walk_renameVars,
      walkArms_renameArms arms]
  | .lambda params body => by
    simp only [ExprForm.renameVars, ExprForm.walkParts, List.map_append, body.walk_renameVars,
      List.map_map]
    rfl

theorem walkExprs_renameExprs : (es : List Expr) →
    walkExprs (renameExprs ρ es) = (walkExprs es).map (TreeNode.renameVars ρ)
  | [] => rfl
  | e :: rest => by
    rw [renameExprs, walkExprs, walkExprs, List.map_append, e.walk_renameVars,
      walkExprs_renameExprs rest]

theorem walkArms_renameArms : (arms : List Arm) →
    walkArms (renameArms ρ arms) = (walkArms arms).map (TreeNode.renameVars ρ)
  | [] => rfl
  | .mk pattern body span :: rest => by
    rw [renameArms, walkArms, walkArms, List.map_cons, List.map_append, List.map_append,
      pattern.walk_renameVars, body.walk_renameVars, walkArms_renameArms rest]
    rfl

theorem Pattern.walk_renameVars : (p : Pattern) →
    (p.renameVars ρ).walk = p.walk.map (TreeNode.renameVars ρ)
  | .wildcard _ | .binding _ _ => rfl
  | .literal _ expr => by
    rw [Pattern.renameVars, Pattern.walk, Pattern.walk, List.map_cons, expr.walk_renameVars]
    rfl
  | .tuple _ items | .tag _ _ items => by
    rw [Pattern.renameVars, Pattern.walk, Pattern.walk, List.map_cons,
      walkPatterns_renamePatterns items]
    rfl

theorem walkPatterns_renamePatterns : (ps : List Pattern) →
    walkPatterns (renamePatterns ρ ps) = (walkPatterns ps).map (TreeNode.renameVars ρ)
  | [] => rfl
  | p :: rest => by
    rw [renamePatterns, walkPatterns, walkPatterns, List.map_append, p.walk_renameVars,
      walkPatterns_renamePatterns rest]

end

theorem FunctionDecl.walk_renameVars (f : FunctionDecl) :
    (f.renameVars ρ).walk = f.walk.map (TreeNode.renameVars ρ) := by
  have hparams : (f.renameVars ρ).params.map TreeNode.param =
      (f.params.map TreeNode.param).map (TreeNode.renameVars ρ) := by
    rw [FunctionDecl.renameVars, List.map_map, List.map_map]
    rfl
  have hbody : ((f.renameVars ρ).body.map Expr.walk).getD [] =
      ((f.body.map Expr.walk).getD []).map (TreeNode.renameVars ρ) := by
    rw [FunctionDecl.renameVars]
    cases f.body with
    | none => rfl
    | some body => exact body.walk_renameVars
  rw [FunctionDecl.walk, FunctionDecl.walk, hparams, hbody, List.map_append, List.map_cons]
  rfl

theorem FunctionDecl.subexprs_renameVars (f : FunctionDecl) :
    (f.renameVars ρ).subexprs = f.subexprs.map (Expr.renameVars ρ) := by
  rw [FunctionDecl.subexprs, FunctionDecl.subexprs, f.walk_renameVars, List.filterMap_map,
    List.map_filterMap]
  refine List.filterMap_congr fun node _ => ?_
  cases node with
  | arm arm => obtain ⟨p, body, span⟩ := arm; rfl
  | _ => rfl

/-- The numbers of the expressions of a function do not change with its type variables. -/
theorem FunctionDecl.exprIds_renameVars (f : FunctionDecl) :
    (f.renameVars ρ).subexprs.map Expr.id = f.subexprs.map Expr.id := by
  rw [f.subexprs_renameVars, List.map_map]
  exact List.map_congr_left fun e _ => e.id_renameVars

/-- What a function refers to does not change with its type variables. -/
theorem FunctionDecl.references_renameVars (f : FunctionDecl) :
    (f.renameVars ρ).references = f.references := by
  rw [FunctionDecl.references, FunctionDecl.references, f.subexprs_renameVars, List.filterMap_map]
  congr 1
  refine List.filterMap_congr fun e _ => ?_
  obtain ⟨id, span, form⟩ := e
  cases form <;> rfl

/-! ## What is written at a node -/

/-- The types that are written at a node, not below it. -/
def TreeNode.written : TreeNode → List TypeExpr
  | .function f => f.ret.toList ++ f.given.flatMap (·.args)
  | .param p => p.written.toList
  | .expr (.mk _ _ (.define _ written _)) => written.toList
  | .expr (.mk _ _ (.ascribe _ written)) => [written]
  | .expr _ | .arm _ | .pattern _ => []

/-- The name that a node refers to. -/
def TreeNode.ident? : TreeNode → Option Name
  | .expr (.mk _ _ (.ident name)) => some name
  | _ => none

/-- The type variables that are written in a function. -/
def FunctionDecl.typeVars (f : FunctionDecl) : List Name :=
  f.walk.flatMap fun node => varNamesOf node.written

theorem FunctionDecl.references_eq (f : FunctionDecl) :
    f.references = (f.walk.filterMap TreeNode.ident?).eraseDups := by
  rw [FunctionDecl.references, FunctionDecl.subexprs, List.filterMap_filterMap]
  refine congrArg _ (List.filterMap_congr fun node _ => ?_)
  cases node with
  | expr e =>
    obtain ⟨id, span, form⟩ := e
    cases form <;> rfl
  | function | param | arm | pattern => rfl

theorem FunctionDecl.mem_references_of_ident? {f : FunctionDecl} {node : TreeNode} {name : Name}
    (hnode : node ∈ f.walk) (hname : node.ident? = some name) : name ∈ f.references := by
  rw [f.references_eq, List.mem_eraseDups]
  exact List.mem_filterMap.mpr ⟨node, hnode, hname⟩

/-! ## Coverage of renamed patterns -/

/-- Two patterns cover the same. -/
structure Pattern.SameCover (p q : Pattern) : Prop where
  isCatchAll : q.isCatchAll = p.isCatchAll
  coveredTag? : q.coveredTag? = p.coveredTag?
  tagName? : q.tagName? = p.tagName?
  bool? : q.bool? = p.bool?
  coversSingleForm : q.coversSingleForm = p.coversSingleForm

/-- The cases that patterns leave open depend on what each covers. -/
theorem Store.missingPatterns_congr (st : Store) {ps qs : List Pattern}
    (h : List.Forall₂ Pattern.SameCover ps qs) : st.missingPatterns qs = st.missingPatterns ps := by
  have hread : ∀ {α : Type} {f : Pattern → α}, (∀ p q, p.SameCover q → f q = f p) →
      qs.map f = ps.map f := fun hf => map_eq_of_forall₂ (h.imp hf)
  have hany : ∀ {f : Pattern → Bool}, (∀ p q, p.SameCover q → f q = f p) →
      qs.any f = ps.any f := fun {f} hf => by
    simpa [List.any_map] using congrArg (List.any · id) (hread hf)
  have hfilter : ∀ {α : Type} {f : Pattern → Option α}, (∀ p q, p.SameCover q → f q = f p) →
      qs.filterMap f = ps.filterMap f := fun {α f} hf => by
    simpa [List.filterMap_map] using congrArg (List.filterMap id) (hread hf)
  have hfind : qs.findSome? Pattern.tagName? = ps.findSome? Pattern.tagName? := by
    simpa [List.findSome?_map] using
      congrArg (List.findSome? id) (hread fun _ _ hpq => hpq.tagName?)
  unfold missingPatterns missingTags
  rw [hany fun _ _ hpq => hpq.isCatchAll, hfind, hfilter fun _ _ hpq => hpq.bool?,
    hfilter fun _ _ hpq => hpq.coveredTag?, hany fun _ _ hpq => hpq.coversSingleForm]

mutual

theorem Pattern.isOpen_renameVars : (p : Pattern) → (p.renameVars ρ).isOpen = p.isOpen
  | .wildcard _ | .binding _ _ | .literal _ _ | .tag _ _ _ => rfl
  | .tuple _ items => allOpen_renamePatterns items

theorem allOpen_renamePatterns : (ps : List Pattern) → allOpen (renamePatterns ρ ps) = allOpen ps
  | [] => rfl
  | p :: rest => by
    rw [renamePatterns, allOpen, allOpen, p.isOpen_renameVars, allOpen_renamePatterns rest]

end

/-- What a pattern covers does not depend on the type variables in its literals. -/
theorem Pattern.sameCover_renameVars (p : Pattern) : p.SameCover (p.renameVars ρ) := by
  cases p with
  | wildcard | binding => exact ⟨rfl, rfl, rfl, rfl, rfl⟩
  | literal id e =>
    obtain ⟨eid, span, form⟩ := e
    cases form <;> exact ⟨rfl, rfl, rfl, rfl, rfl⟩
  | tuple id items => exact ⟨rfl, rfl, rfl, rfl, allOpen_renamePatterns items⟩
  | tag id name items =>
    refine ⟨rfl, ?_, rfl, rfl, rfl⟩
    rw [Pattern.renameVars, Pattern.coveredTag?, Pattern.coveredTag?, allOpen_renamePatterns]

theorem missingPatterns_renamePatterns (st : Store) (ps : List Pattern) :
    st.missingPatterns (renamePatterns ρ ps) = st.missingPatterns ps := by
  rw [renamePatterns_eq_map]
  exact st.missingPatterns_congr (List.forall₂_map_right_iff.mpr
    (List.forall₂_same.mpr fun p _ => p.sameCover_renameVars))

end ConstraintTyping
