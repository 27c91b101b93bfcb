import ConstraintTyping.Infer.Scopes
import ConstraintTyping.Proofs.Infer.Records
import ConstraintTyping.Proofs.Renaming.Renamed

/-!
# Another name for a local

The binders of a function are its parameters, the names that it defines, the parameters of its
lambdas and the names that its patterns bind.  One of them gets another name, and so do the
references that it binds.  Scopes are those of the walk over the body: a binding lasts until the
innermost scope ends, and hides what was bound before it.

Below a tag that is not declared, and past the fields of one that is, a walk does not look at a
pattern and binds nothing.  Binders are renamed there too, but they bind no references.
-/

namespace ConstraintTyping

/-- A binder, by its number in the order of the walk and its name, and the name that it gets. -/
structure LocalRenaming where
  binder : Nat
  old : Name
  name : Name
  /-- How many fields a tag has, if it is declared. -/
  fields? : Name → Option Nat

/-- What a renaming has come by so far: how many binders, and the local names that are in scope, each
as it was and as it is. -/
structure LocalNames where
  count : Nat := 0
  inner : List (Name × Name) := []
  outer : List (List (Name × Name)) := []

namespace LocalNames

/-- The names in scope, those bound last first. -/
def pairs (r : LocalNames) : List (Name × Name) := r.inner ++ r.outer.flatten

/-- A scope is opened. -/
def enter (r : LocalNames) : LocalNames := { r with inner := [], outer := r.inner :: r.outer }

/-- The name by which a reference goes on. -/
def nameOf (r : LocalNames) (x : Name) : Name := (r.pairs.lookup x).getD x

end LocalNames

/-- Computations of a renaming. -/
abbrev LocalM := StateM LocalNames

namespace LocalM

variable {α : Type}

/-- Bind a name, the one that is renamed by its new name. -/
def bindName (ρ : LocalRenaming) (x : Name) : LocalM Name := fun r =>
  let x' := if r.count = ρ.binder ∧ x = ρ.old then ρ.name else x
  (x', { r with count := r.count + 1, inner := (x, x') :: r.inner })

/-- Forget the names that are bound on the way. -/
def closed (act : LocalM α) : LocalM α := fun r => ((act r).1, { r with count := (act r).2.count })

/-- Open a scope for a computation. -/
def inScope (act : LocalM α) : LocalM α := fun r =>
  ((act r.enter).1, { r with count := (act r.enter).2.count })

/-- Bind the names of parameters. -/
def bindParams (ρ : LocalRenaming) : List Param → LocalM (List Param)
  | [] => return []
  | p :: rest => do
    let name ← bindName ρ p.name
    let rest ← bindParams ρ rest
    return { p with name } :: rest

end LocalM

open LocalM LocalNames

mutual

/-- An expression with another name for one binder. -/
def Expr.renameLocal (ρ : LocalRenaming) : Expr → LocalM Expr
  | .mk id span form => do
    let form ← form.renameLocal ρ
    return .mk id span form

/-- What an expression is, with another name for one binder. -/
def ExprForm.renameLocal (ρ : LocalRenaming) : ExprForm → LocalM ExprForm
  | .int value suffix => return .int value suffix
  | .float bits suffix => return .float bits suffix
  | .bool value => return .bool value
  | .char value => return .char value
  | .string value => return .string value
  | .unit => return .unit
  | .ident name => return .ident ((← get).nameOf name)
  | .call callee args => do
    let callee ← callee.renameLocal ρ
    let args ← renameLocals ρ args
    return .call callee args
  | .binary op left right => do
    let left ← left.renameLocal ρ
    let right ← right.renameLocal ρ
    return .binary op left right
  | .unary op operand => do
    let operand ← operand.renameLocal ρ
    return .unary op operand
  | .field receiver name => do
    let receiver ← receiver.renameLocal ρ
    return .field receiver name
  | .construct name args => do
    let args ← renameLocals ρ args
    return .construct name args
  | .tuple items => do
    let items ← renameLocals ρ items
    return .tuple items
  | .array items => do
    let items ← renameLocals ρ items
    return .array items
  | .block items => do
    let items ← inScope (renameLocals ρ items)
    return .block items
  | .ifThen condition thenBranch => do
    let condition ← condition.renameLocal ρ
    let thenBranch ← thenBranch.renameLocal ρ
    return .ifThen condition thenBranch
  | .ifElse condition thenBranch elseBranch => do
    let condition ← condition.renameLocal ρ
    let thenBranch ← thenBranch.renameLocal ρ
    let elseBranch ← elseBranch.renameLocal ρ
    return .ifElse condition thenBranch elseBranch
  | .select scrutinee arms => do
    let scrutinee ← scrutinee.renameLocal ρ
    let arms ← renameArmLocals ρ arms
    return .select scrutinee arms
  | .loop condition body => do
    let condition ← condition.renameLocal ρ
    let body ← body.renameLocal ρ
    return .loop condition body
  | .define name written init => do
    let init ← init.renameLocal ρ
    let name ← bindName ρ name
    return .define name written init
  | .assign target value => do
    let target ← target.renameLocal ρ
    let value ← value.renameLocal ρ
    return .assign target value
  | .ascribe expr written => do
    let expr ← expr.renameLocal ρ
    return .ascribe expr written
  | .lambda params body => inScope do
    let params ← bindParams ρ params
    let body ← body.renameLocal ρ
    return .lambda params body

/-- Expressions with another name for one binder. -/
def renameLocals (ρ : LocalRenaming) : List Expr → LocalM (List Expr)
  | [] => return []
  | e :: rest => do
    let e ← e.renameLocal ρ
    let rest ← renameLocals ρ rest
    return e :: rest

/-- Arms with another name for one binder. -/
def renameArmLocals (ρ : LocalRenaming) : List Arm → LocalM (List Arm)
  | [] => return []
  | .mk pattern body span :: rest => do
    let arm ← inScope do
      let pattern ← pattern.renameLocal ρ
      let body ← body.renameLocal ρ
      return .mk pattern body span
    let rest ← renameArmLocals ρ rest
    return arm :: rest

/-- A pattern with another name for one binder. -/
def Pattern.renameLocal (ρ : LocalRenaming) : Pattern → LocalM Pattern
  | .wildcard id => return .wildcard id
  | .binding id name => do
    let name ← bindName ρ name
    return .binding id name
  | .literal id expr => do
    let expr ← expr.renameLocal ρ
    return .literal id expr
  | .tuple id items => do
    let items ← renamePatternLocals ρ items.length items
    return .tuple id items
  | .tag id name items => do
    let items ← renamePatternLocals ρ ((ρ.fields? name).getD 0) items
    return .tag id name items

/-- Patterns with another name for one binder; so many of them bind names. -/
def renamePatternLocals (ρ : LocalRenaming) : Nat → List Pattern → LocalM (List Pattern)
  | _, [] => return []
  | 0, p :: rest => do
    let p ← closed (p.renameLocal ρ)
    let rest ← renamePatternLocals ρ 0 rest
    return p :: rest
  | n + 1, p :: rest => do
    let p ← p.renameLocal ρ
    let rest ← renamePatternLocals ρ n rest
    return p :: rest

end

/-- A function with another name for one binder. -/
def FunctionDecl.renameLocal (ρ : LocalRenaming) (f : FunctionDecl) : FunctionDecl :=
  let (params, r) := bindParams ρ f.params (LocalNames.enter {})
  { f with params, body := f.body.map fun body => (body.renameLocal ρ r).1 }

-- a lambda that binds the name again keeps it, and the body after the lambda goes on with the new name
example (s : Span) :
    (Expr.mk 0 s (.tuple [.mk 1 s (.lambda [⟨"x", none, s⟩] (.mk 2 s (.ident "x"))),
      .mk 3 s (.ident "x")])).renameLocal ⟨0, "x", "y", fun _ => none⟩
        { count := 1, inner := [("x", "y")] } =
      (.mk 0 s (.tuple [.mk 1 s (.lambda [⟨"x", none, s⟩] (.mk 2 s (.ident "x"))),
        .mk 3 s (.ident "y")]), { count := 2, inner := [("x", "y")] }) := by
  rfl

/-- A module in which a binder of the function at a position has another name. -/
def Module.renameLocal (m : Module) (fields? : Name → Option Nat) (i binder : Nat)
    (old name : Name) : Module :=
  { m with functions := m.functions.modify i (FunctionDecl.renameLocal ⟨binder, old, name, fields?⟩) }

/-- The values that are named at a node: what it refers to and what it binds. -/
def TreeNode.valueNames : TreeNode → List Name
  | .param p => [p.name]
  | .expr (.mk _ _ (.ident name)) => [name]
  | .expr (.mk _ _ (.define name _ _)) => [name]
  | .pattern (.binding _ name) => [name]
  | _ => []

/-- A name is not that of a value at any of the nodes. -/
abbrev NewAt (name : Name) (nodes : List TreeNode) : Prop := ∀ node ∈ nodes, name ∉ node.valueNames

theorem NewAt.params {name : Name} {params : List Param} (h : NewAt name (params.map .param)) :
    ∀ p ∈ params, p.name ≠ name := fun _ hp =>
  (List.ne_of_not_mem_cons (h _ (List.mem_map_of_mem hp))).symm

/-- A name is new in a function. -/
def FunctionDecl.New (name : Name) (f : FunctionDecl) : Prop := NewAt name f.walk

instance (name : Name) (f : FunctionDecl) : Decidable (f.New name) := by
  unfold FunctionDecl.New; infer_instance

/-- How many fields a declared tag has. -/
def Store.fieldCount? (st : Store) (name : Name) : Option Nat :=
  (st.declaredProduct? name).bind fun decl => (st.productBody? decl).map (·.fields.length)

variable {ρ : LocalRenaming} {r : LocalNames}

/-! ## The names in scope -/

namespace LocalNames

variable {x : Name} {scopes scopes' : Scopes}

/-- No reference can change its binder: the new name is none of the old ones, and it is bound at most
once, after the binder was passed that it is for. -/
structure Apt (ρ : LocalRenaming) (r : LocalNames) : Prop where
  old : ∀ p ∈ r.pairs, p.1 ≠ ρ.name
  new : ∀ p ∈ r.pairs, p.2 = p.1 ∨ p.2 = ρ.name
  once : r.pairs.Pairwise fun p q => p.2 = ρ.name → q.2 ≠ ρ.name
  before : r.count ≤ ρ.binder → ∀ p ∈ r.pairs, p.2 ≠ ρ.name

theorem apt_of_pairs_nil (h : r.pairs = []) : r.Apt ρ := by
  constructor <;> simp [h]

theorem Apt.bindName (h : r.Apt ρ) (hx : x ≠ ρ.name) : (bindName ρ x r).2.Apt ρ := by
  have hpairs : (LocalM.bindName ρ x r).2.pairs =
      (x, if r.count = ρ.binder ∧ x = ρ.old then ρ.name else x) :: r.pairs := rfl
  have hcount : (LocalM.bindName ρ x r).2.count = r.count + 1 := rfl
  refine ⟨?_, ?_, ?_, fun hle => ?_⟩ <;> rw [hpairs]
  · exact List.forall_mem_cons.mpr ⟨hx, h.old⟩
  · refine List.forall_mem_cons.mpr ⟨?_, h.new⟩
    split
    · exact .inr rfl
    · exact .inl rfl
  · refine List.pairwise_cons.mpr ⟨fun q hq heq => ?_, h.once⟩
    split at heq
    · next hb => exact h.before (Nat.le_of_eq hb.1) q hq
    · exact absurd heq hx
  · rw [hcount] at hle
    refine List.forall_mem_cons.mpr ⟨?_, h.before (by omega)⟩
    rw [if_neg fun hb => by omega]
    exact hx

theorem Apt.enter (h : r.Apt ρ) : r.enter.Apt ρ := ⟨h.old, h.new, h.once, h.before⟩

theorem Apt.exit {r' : LocalNames} (h : r'.Apt ρ) (houter : r'.outer = r.inner :: r.outer) :
    Apt ρ { r with count := r'.count } := by
  have hpairs : r'.pairs = r'.inner ++ r.pairs := congrArg (r'.inner ++ List.flatten ·) houter
  have hsub : ∀ p ∈ r.pairs, p ∈ r'.pairs := fun p hp => by
    rw [hpairs]
    exact List.mem_append_right _ hp
  refine ⟨fun p hp => h.old p (hsub p hp), fun p hp => h.new p (hsub p hp), ?_,
    fun hle p hp => h.before hle p (hsub p hp)⟩
  have honce := h.once
  rw [hpairs] at honce
  exact (List.pairwise_append.mp honce).2.1

theorem Apt.later (h : r.Apt ρ) {n : Nat} (hle : r.count ≤ n) : Apt ρ { r with count := n } :=
  ⟨h.old, h.new, h.once, fun hn => h.before (Nat.le_trans hle hn)⟩

/-- Scopes that bind the same types, one under the names as they were, the other under the names as
they are. -/
def Bind (r : LocalNames) (scopes scopes' : Scopes) : Prop :=
  ∃ frames : List (List ((Name × Name) × TypeId)),
    frames.map (·.map Prod.fst) = r.inner :: r.outer ∧
    scopes.frames = frames.map (·.map fun b => (b.1.1, b.2)) ∧
    scopes'.frames = frames.map (·.map fun b => (b.1.2, b.2))

theorem bind_start : Bind {} {} {} := ⟨[[]], rfl, rfl, rfl⟩

theorem Bind.bindName (h : r.Bind scopes scopes') (x : Name) (ty : TypeId) :
    (bindName ρ x r).2.Bind (scopes.bind x ty) (scopes'.bind (LocalM.bindName ρ x r).1 ty) := by
  obtain ⟨frames⟩ := scopes
  obtain ⟨frames'⟩ := scopes'
  obtain ⟨bindings, hr, rfl, rfl⟩ := h
  cases bindings with
  | nil => cases hr
  | cons frame outer =>
    obtain ⟨hinner, houter⟩ := List.cons.inj hr
    refine ⟨(((x, (LocalM.bindName ρ x r).1), ty) :: frame) :: outer, ?_, rfl, rfl⟩
    exact congrArg₂ List.cons (congrArg _ hinner) houter

theorem Bind.enter (h : r.Bind scopes scopes') :
    r.enter.Bind scopes.enter scopes'.enter := by
  obtain ⟨frames⟩ := scopes
  obtain ⟨frames'⟩ := scopes'
  obtain ⟨bindings, hr, rfl, rfl⟩ := h
  exact ⟨[] :: bindings, congrArg _ hr, rfl, rfl⟩

/-- When a scope ends, the names are in scope that were before it. -/
theorem Bind.exit {r' : LocalNames} {n : Nat} (h : r'.Bind scopes scopes')
    (houter : r'.outer = r.inner :: r.outer) : Bind { r with count := n } scopes.exit scopes'.exit := by
  obtain ⟨frames⟩ := scopes
  obtain ⟨frames'⟩ := scopes'
  obtain ⟨bindings, hr, rfl, rfl⟩ := h
  cases bindings with
  | nil => cases hr
  | cons frame outer => exact ⟨outer, (List.cons.inj hr).2.trans houter, rfl, rfl⟩

/-- Among names that go together, a reference finds under its new name what it found before. -/
theorem lookup_nameOf {bindings : List ((Name × Name) × TypeId)} (hx : x ≠ ρ.name)
    (hold : ∀ b ∈ bindings, b.1.1 ≠ ρ.name)
    (hnew : ∀ b ∈ bindings, b.1.2 = b.1.1 ∨ b.1.2 = ρ.name)
    (honce : bindings.Pairwise fun b c => b.1.2 = ρ.name → c.1.2 ≠ ρ.name) :
    (bindings.map fun b => (b.1.2, b.2)).lookup (((bindings.map Prod.fst).lookup x).getD x) =
      (bindings.map fun b => (b.1.1, b.2)).lookup x := by
  induction bindings with
  | nil => rfl
  | cons b bindings ih =>
    obtain ⟨⟨old, new⟩, ty⟩ := b
    rw [List.forall_mem_cons] at hold hnew
    rw [List.pairwise_cons] at honce
    rw [List.map_cons, List.map_cons, List.map_cons]
    by_cases heq : x = old
    · subst heq
      simp
    -- a binder of another name does not get the name of the reference
    have hne : ((bindings.map Prod.fst).lookup x).getD x ≠ new := by
      intro hnew'
      cases hlookup : (bindings.map Prod.fst).lookup x with
      | none =>
        rw [hlookup] at hnew'
        rcases hnew.1 with h | h
        · exact heq (hnew'.trans h)
        · exact hx (hnew'.trans h)
      | some w =>
        rw [hlookup] at hnew'
        obtain rfl : w = new := hnew'
        obtain ⟨l₁, l₂, hl, -⟩ := List.lookup_eq_some_iff.mp hlookup
        obtain ⟨c, hc, hcw⟩ := List.mem_map.mp (show (x, w) ∈ bindings.map Prod.fst by rw [hl]; simp)
        have hxw : w = x ∨ w = ρ.name := by simpa [hcw] using hnew.2 c hc
        rcases hnew.1 with h | h
        · rcases hxw with hxw | hxw
          · exact heq (hxw.symm.trans h)
          · exact hold.1 (h.symm.trans hxw)
        · exact honce.1 c hc h (by rw [hcw]; exact h)
    rw [List.lookup_cons, List.lookup_cons, List.lookup_cons]
    simp only [beq_eq_false_iff_ne.mpr heq, beq_eq_false_iff_ne.mpr hne]
    exact ih hold.2 hnew.2 honce.2

theorem lookup?_eq (scopes : Scopes) (x : Name) :
    scopes.lookup? x = scopes.frames.flatten.lookup x := by
  obtain ⟨frames⟩ := scopes
  show frames.findSome? (fun frame => frame.lookup x) = frames.flatten.lookup x
  induction frames with
  | nil => rfl
  | cons frame frames ih =>
    rw [List.findSome?_cons, List.flatten_cons, List.lookup_append, ih]
    cases frame.lookup x <;> rfl

/-- A reference is to the same binding under its new name. -/
theorem Bind.lookup? (h : r.Bind scopes scopes') (hr : r.Apt ρ) (hx : x ≠ ρ.name) :
    scopes'.lookup? (r.nameOf x) = scopes.lookup? x := by
  obtain ⟨bindings, hpairs, hframes, hframes'⟩ := h
  have hflat : bindings.flatten.map Prod.fst = r.pairs := by
    rw [List.map_flatten, hpairs]
    rfl
  have hmem : ∀ b ∈ bindings.flatten, b.1 ∈ r.pairs := fun b hb => by
    rw [← hflat]
    exact List.mem_map_of_mem hb
  rw [lookup?_eq, lookup?_eq, hframes, hframes', ← List.map_flatten, ← List.map_flatten, nameOf,
    ← hflat]
  refine lookup_nameOf hx (fun b hb => hr.old _ (hmem b hb)) (fun b hb => hr.new _ (hmem b hb)) ?_
  have honce := hr.once
  rwa [← hflat, List.pairwise_map] at honce

/-- A name that is not local stays. -/
theorem Bind.nameOf_eq (h : r.Bind scopes scopes') (hx : scopes.lookup? x = none) :
    r.nameOf x = x := by
  obtain ⟨bindings, hpairs, hframes, -⟩ := h
  have hflat : bindings.flatten.map Prod.fst = r.pairs := by
    rw [List.map_flatten, hpairs]
    rfl
  rw [lookup?_eq, hframes, ← List.map_flatten, List.lookup_eq_none_iff] at hx
  have hnone : r.pairs.lookup x = none := by
    rw [← hflat, List.lookup_eq_none_iff]
    intro p hp
    obtain ⟨b, hb, rfl⟩ := List.mem_map.mp hp
    exact hx _ (List.mem_map_of_mem hb)
  rw [nameOf, hnone, Option.getD_none]

end LocalNames

/-! ## Scopes that are opened are closed -/

/-- A part of a tree has its own scopes, and counts on. -/
structure LocalNames.Leads (r r' : LocalNames) : Prop where
  outer : r'.outer = r.outer
  count : r.count ≤ r'.count

namespace LocalNames

variable {r' r'' : LocalNames}

theorem Leads.refl (r : LocalNames) : r.Leads r := ⟨rfl, Nat.le_refl _⟩

theorem Leads.trans (h : r.Leads r') (h' : r'.Leads r'') : r.Leads r'' :=
  ⟨h'.outer.trans h.outer, Nat.le_trans h.count h'.count⟩

theorem leads_bindName (x : Name) (r : LocalNames) : r.Leads (bindName ρ x r).2 :=
  ⟨rfl, Nat.le_succ _⟩

theorem leads_bindParams (params : List Param) (r : LocalNames) :
    r.Leads (bindParams ρ params r).2 := by
  induction params generalizing r with
  | nil => exact .refl r
  | cons p rest ih => exact (leads_bindName p.name r).trans (ih _)

theorem Leads.closed {n : Nat} (hle : r.count ≤ n) : r.Leads { r with count := n } := ⟨rfl, hle⟩

end LocalNames

mutual

theorem Expr.leads_renameLocal : (e : Expr) → (r : LocalNames) → r.Leads (e.renameLocal ρ r).2
  | .mk _ _ form, r => form.leads_renameLocal r

theorem ExprForm.leads_renameLocal : (form : ExprForm) → (r : LocalNames) →
    r.Leads (form.renameLocal ρ r).2
  | .int _ _, r | .float _ _, r | .bool _, r | .char _, r | .string _, r | .unit, r
  | .ident _, r => .refl r
  | .call callee args, r => (callee.leads_renameLocal r).trans (leads_renameLocals args _)
  | .binary _ left right, r | .assign left right, r | .loop left right, r
  | .ifThen left right, r => (left.leads_renameLocal r).trans (right.leads_renameLocal _)
  | .unary _ operand, r | .field operand _, r | .ascribe operand _, r => operand.leads_renameLocal r
  | .define name _ init, r => (init.leads_renameLocal r).trans (leads_bindName name _)
  | .construct _ items, r | .tuple items, r | .array items, r => leads_renameLocals items r
  | .block items, r => .closed (leads_renameLocals items r.enter).count
  | .ifElse condition thenBranch elseBranch, r =>
    ((condition.leads_renameLocal r).trans (thenBranch.leads_renameLocal _)).trans
      (elseBranch.leads_renameLocal _)
  | .select scrutinee arms, r =>
    (scrutinee.leads_renameLocal r).trans (leads_renameArmLocals arms _)
  | .lambda params body, r =>
    .closed ((leads_bindParams params r.enter).trans (body.leads_renameLocal _)).count

theorem leads_renameLocals : (es : List Expr) → (r : LocalNames) → r.Leads (renameLocals ρ es r).2
  | [], r => .refl r
  | e :: rest, r => (e.leads_renameLocal r).trans (leads_renameLocals rest _)

theorem leads_renameArmLocals : (arms : List Arm) → (r : LocalNames) →
    r.Leads (renameArmLocals ρ arms r).2
  | [], r => .refl r
  | .mk pattern body _ :: rest, r =>
    Leads.trans (.closed ((pattern.leads_renameLocal r.enter).trans (body.leads_renameLocal _)).count)
      (leads_renameArmLocals rest _)

theorem Pattern.leads_renameLocal : (p : Pattern) → (r : LocalNames) →
    r.Leads (p.renameLocal ρ r).2
  | .wildcard _, r => .refl r
  | .binding _ name, r => leads_bindName name r
  | .literal _ expr, r => expr.leads_renameLocal r
  | .tuple _ items, r => leads_renamePatternLocals items.length items r
  | .tag _ name items, r => leads_renamePatternLocals ((ρ.fields? name).getD 0) items r

theorem leads_renamePatternLocals : (n : Nat) → (ps : List Pattern) → (r : LocalNames) →
    r.Leads (renamePatternLocals ρ n ps r).2
  | 0, [], r | _ + 1, [], r => .refl r
  | 0, p :: rest, r =>
    Leads.trans (.closed (p.leads_renameLocal r).count) (leads_renamePatternLocals 0 rest _)
  | n + 1, p :: rest, r => (p.leads_renameLocal r).trans (leads_renamePatternLocals n rest _)

end

/-! ## What stays -/

@[simp] theorem Expr.id_renameLocal (e : Expr) (r : LocalNames) :
    (e.renameLocal ρ r).1.id = e.id := by
  cases e; rfl

@[simp] theorem Expr.span_renameLocal (e : Expr) (r : LocalNames) :
    (e.renameLocal ρ r).1.span = e.span := by
  cases e; rfl

theorem spans_renameLocals (es : List Expr) (r : LocalNames) :
    (renameLocals ρ es r).1.map Expr.span = es.map Expr.span := by
  induction es generalizing r with
  | nil => rfl
  | cons e rest ih =>
    exact congrArg₂ List.cons (e.span_renameLocal r) (ih _)

theorem length_renameLocals (es : List Expr) (r : LocalNames) :
    (renameLocals ρ es r).1.length = es.length := by
  simpa using congrArg List.length (spans_renameLocals es r)

theorem length_renamePatternLocals (n : Nat) (ps : List Pattern) (r : LocalNames) :
    (renamePatternLocals ρ n ps r).1.length = ps.length := by
  induction ps generalizing n r with
  | nil => cases n <;> rfl
  | cons p rest ih =>
    cases n with
    | zero => exact congrArg (· + 1) (ih 0 _)
    | succ n => exact congrArg (· + 1) (ih n _)

theorem exprIds_congr {xs xs' ys ys' : List TreeNode} (hx : exprIds xs' = exprIds xs)
    (hy : exprIds ys' = exprIds ys) : exprIds (xs' ++ ys') = exprIds (xs ++ ys) := by
  rw [exprIds_append, exprIds_append, hx, hy]

mutual

/-- The expressions of a tree keep their numbers and their order. -/
theorem Expr.exprIds_renameLocal : (e : Expr) → (r : LocalNames) →
    exprIds (e.renameLocal ρ r).1.walk = exprIds e.walk
  | .mk id _ form, r => congrArg (List.cons id) (form.exprIds_renameLocal r)

theorem ExprForm.exprIds_renameLocal : (form : ExprForm) → (r : LocalNames) →
    exprIds (form.renameLocal ρ r).1.walkParts = exprIds form.walkParts
  | .int _ _, _ | .float _ _, _ | .bool _, _ | .char _, _ | .string _, _ | .unit, _
  | .ident _, _ => rfl
  | .call callee args, r =>
    exprIds_congr (callee.exprIds_renameLocal r) (exprIds_renameLocals args _)
  | .binary _ left right, r | .assign left right, r | .loop left right, r
  | .ifThen left right, r =>
    exprIds_congr (left.exprIds_renameLocal r) (right.exprIds_renameLocal _)
  | .unary _ operand, r | .field operand _, r | .define _ _ operand, r | .ascribe operand _, r =>
    operand.exprIds_renameLocal r
  | .construct _ items, _ | .tuple items, _ | .array items, _ | .block items, _ =>
    exprIds_renameLocals items _
  | .ifElse condition thenBranch elseBranch, r =>
    exprIds_congr (exprIds_congr (condition.exprIds_renameLocal r)
      (thenBranch.exprIds_renameLocal _)) (elseBranch.exprIds_renameLocal _)
  | .select scrutinee arms, r =>
    exprIds_congr (scrutinee.exprIds_renameLocal r) (exprIds_renameArmLocals arms _)
  | .lambda params body, _ =>
    exprIds_congr ((exprIds_params _).trans (exprIds_params params).symm)
      (body.exprIds_renameLocal _)

theorem exprIds_renameLocals : (es : List Expr) → (r : LocalNames) →
    exprIds (walkExprs (renameLocals ρ es r).1) = exprIds (walkExprs es)
  | [], _ => rfl
  | e :: rest, r => exprIds_congr (e.exprIds_renameLocal r) (exprIds_renameLocals rest _)

theorem exprIds_renameArmLocals : (arms : List Arm) → (r : LocalNames) →
    exprIds (walkArms (renameArmLocals ρ arms r).1) = exprIds (walkArms arms)
  | [], _ => rfl
  | .mk pattern body _ :: rest, _ =>
    exprIds_congr (exprIds_congr (pattern.exprIds_renameLocal _) (body.exprIds_renameLocal _))
      (exprIds_renameArmLocals rest _)

theorem Pattern.exprIds_renameLocal : (p : Pattern) → (r : LocalNames) →
    exprIds (p.renameLocal ρ r).1.walk = exprIds p.walk
  | .wildcard _, _ | .binding _ _, _ => rfl
  | .literal _ expr, r => expr.exprIds_renameLocal r
  | .tuple _ items, r => exprIds_renamePatternLocals items.length items r
  | .tag _ name items, r => exprIds_renamePatternLocals ((ρ.fields? name).getD 0) items r

theorem exprIds_renamePatternLocals : (n : Nat) → (ps : List Pattern) → (r : LocalNames) →
    exprIds (walkPatterns (renamePatternLocals ρ n ps r).1) = exprIds (walkPatterns ps)
  | 0, [], _ | _ + 1, [], _ => rfl
  | 0, p :: rest, r =>
    exprIds_congr (p.exprIds_renameLocal r) (exprIds_renamePatternLocals 0 rest _)
  | n + 1, p :: rest, r =>
    exprIds_congr (p.exprIds_renameLocal r) (exprIds_renamePatternLocals n rest _)

end

theorem FunctionDecl.exprIds_renameLocal (f : FunctionDecl) :
    (f.renameLocal ρ).subexprs.map Expr.id = f.subexprs.map Expr.id := by
  have hparams : exprIds ((f.renameLocal ρ).params.map .param) = exprIds (f.params.map .param) :=
    (exprIds_params _).trans (exprIds_params _).symm
  refine exprIds_congr hparams ?_
  show exprIds (((f.body.map _).map Expr.walk).getD []) = _
  cases f.body with
  | none => rfl
  | some body => exact body.exprIds_renameLocal _

/-! ## Coverage -/

mutual

theorem Pattern.isOpen_renameLocal : (p : Pattern) → (r : LocalNames) →
    (p.renameLocal ρ r).1.isOpen = p.isOpen
  | .wildcard _, _ | .binding _ _, _ | .literal _ _, _ | .tag _ _ _, _ => rfl
  | .tuple _ items, r => allOpen_renamePatternLocals items.length items r

theorem allOpen_renamePatternLocals : (n : Nat) → (ps : List Pattern) → (r : LocalNames) →
    allOpen (renamePatternLocals ρ n ps r).1 = allOpen ps
  | 0, [], _ | _ + 1, [], _ => rfl
  | 0, p :: rest, r =>
    congrArg₂ and (p.isOpen_renameLocal r) (allOpen_renamePatternLocals 0 rest _)
  | n + 1, p :: rest, r =>
    congrArg₂ and (p.isOpen_renameLocal r) (allOpen_renamePatternLocals n rest _)

end

/-- What a pattern covers does not depend on the names that it binds. -/
theorem Pattern.sameCover_renameLocal (p : Pattern) (r : LocalNames) :
    p.SameCover (p.renameLocal ρ r).1 := by
  cases p with
  | wildcard | binding => exact ⟨rfl, rfl, rfl, rfl, rfl⟩
  | literal id e =>
    obtain ⟨eid, span, form⟩ := e
    cases form <;> exact ⟨rfl, rfl, rfl, rfl, rfl⟩
  | tuple id items =>
    exact ⟨rfl, rfl, rfl, rfl, allOpen_renamePatternLocals items.length items r⟩
  | tag id name items =>
    refine ⟨rfl, ?_, rfl, rfl, rfl⟩
    show (if allOpen (renamePatternLocals ρ _ items r).1 then some name else none) = _
    rw [allOpen_renamePatternLocals]
    rfl

theorem sameCover_renameArmLocals (arms : List Arm) (r : LocalNames) :
    List.Forall₂ Pattern.SameCover (arms.map Arm.pattern)
      ((renameArmLocals ρ arms r).1.map Arm.pattern) := by
  induction arms generalizing r with
  | nil => exact .nil
  | cons arm rest ih =>
    obtain ⟨pattern, body, span⟩ := arm
    exact .cons (pattern.sameCover_renameLocal _) (ih _)

end ConstraintTyping
