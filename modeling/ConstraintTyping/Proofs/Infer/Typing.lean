import ConstraintTyping.Proofs.Solve.Compatible
import ConstraintTyping.Proofs.Types.Declared
import ConstraintTyping.Tree.Walk

/-!
# What it means for a tree to be well typed

`HasType J Γ e t Δ` says that an expression has a type in an environment and leaves an environment,
since a definition binds its name for the rest of its scope.  The judgement speaks of the program, its
declarations and finished types alone: there is no store in it, no constraint and no solution.  Every
node is tied to the type that `J` has on record for its number.

Where a rule wants two types to agree, it is `J` that says what agreement is.  Solving a constraint
makes its sides compatible; a derivation in which they are equal is the strictest reading of the same
rules.  A written type stands for a tree under an assignment of its type variables, and a product is
used at types for its parameters.
-/

namespace ConstraintTyping

open TypeTree

/-! ## Declarations -/

/-- A declared product. -/
structure ProductDecl where
  params : List VarIdent
  fieldNames : List (Option Name)
  /-- The types of the fields, over the parameters. -/
  fields : List TypeTree
  /-- The name of the sum of which the product is a tag. -/
  parent : Option Name

namespace ProductDecl

/-- The types of the fields when the product is used at types for its parameters. -/
def fieldsAt (p : ProductDecl) (vars : VarIdent → TypeTree) (args : List TypeTree) :
    List TypeTree :=
  p.fields.map (subst (assign vars p.params args))

/-- What a construction with the product gives: a tag builds a value of its sum. -/
def result (p : ProductDecl) (name : Name) (args : List TypeTree) : TypeTree :=
  match p.parent with
  | some sum => .mk (.sum sum args)
  | none => .mk (.product name args)

theorem fieldsAt_subst (p : ProductDecl) (vars ρ : VarIdent → TypeTree) (args : List TypeTree) :
    (p.fieldsAt vars args).map (subst ρ) =
      p.fieldsAt (fun x => (vars x).subst ρ) (args.map (subst ρ)) := by
  rw [fieldsAt, fieldsAt, List.map_map]
  exact List.map_congr_left fun t _ => subst_assign vars ρ p.params args t

theorem result_subst (p : ProductDecl) (name : Name) (args : List TypeTree)
    (ρ : VarIdent → TypeTree) :
    (p.result name args).subst ρ = p.result name (args.map (subst ρ)) := by
  unfold result
  cases p.parent with
  | none => exact subst_mk rfl
  | some sum => exact subst_mk rfl

end ProductDecl

/-- What a program declares: products, and all types with their kind and number of parameters. -/
structure Declarations where
  product? : Name → Option ProductDecl
  type? : Name → Option (DeclKind × Nat)

theorem Prim.ne_error_of_ofName? {name : Name} {p : Prim} (h : Prim.ofName? name = some p) :
    p ≠ .error := by
  have hfound := List.find?_some h
  rintro rfl
  cases hfound

/-- A written type stands for a tree, given what its type variables stand for. -/
inductive Declarations.Denotes (D : Declarations) (vars : VarIdent → TypeTree) :
    TypeExpr → TypeTree → Prop
  | prim {name : Name} {p : Prim} (h : Prim.ofName? name = some p) :
      Denotes D vars (.named name []) (.prim p)
  | declared {name : Name} {k : DeclKind} {args : List TypeExpr} {trees : List TypeTree}
      (hname : args = [] → Prim.ofName? name = none) (hdecl : D.type? name = some (k, args.length))
      (hargs : List.Forall₂ (Denotes D vars) args trees) :
      Denotes D vars (.named name args) (.mk (k.shape name trees))
  | var {name : Name} : Denotes D vars (.var name) (vars (.named name))
  | pointer {target : TypeExpr} {t : TypeTree} (h : Denotes D vars target t) :
      Denotes D vars (.pointer target) (.mk (.pointer t))
  | array {elem : TypeExpr} {length : Option Nat} {t : TypeTree} (h : Denotes D vars elem t) :
      Denotes D vars (.array elem length) (.mk (.array t length))
  | tuple {items : List TypeExpr} {trees : List TypeTree}
      (h : List.Forall₂ (Denotes D vars) items trees) :
      Denotes D vars (.tuple items) (.tuple trees)
  | function {params : List TypeExpr} {ret : TypeExpr} {trees : List TypeTree} {t : TypeTree}
      (hparams : List.Forall₂ (Denotes D vars) params trees) (hret : Denotes D vars ret t) :
      Denotes D vars (.function params ret) (.mk (.function { ret := t, params := trees }))
  | qualified {qualifier : Qualifier} {base : TypeExpr} {t : TypeTree} (h : Denotes D vars base t) :
      Denotes D vars (.qualified qualifier base) t

/-- Induction on a written type. -/
theorem TypeExpr.induction {P : TypeExpr → Prop}
    (named : ∀ name args, (∀ a ∈ args, P a) → P (.named name args)) (var : ∀ name, P (.var name))
    (pointer : ∀ target, P target → P (.pointer target))
    (array : ∀ elem length, P elem → P (.array elem length))
    (tuple : ∀ items, (∀ t ∈ items, P t) → P (.tuple items))
    (function : ∀ params ret, (∀ t ∈ params, P t) → P ret → P (.function params ret))
    (qualified : ∀ q base, P base → P (.qualified q base)) (w : TypeExpr) : P w :=
  @TypeExpr.rec P (fun ws => ∀ w ∈ ws, P w) named var pointer array tuple function qualified
    (by simp) (fun _ _ hw hws => List.forall_mem_cons.mpr ⟨hw, hws⟩) w

namespace Declarations

variable {D : Declarations} {vars : VarIdent → TypeTree} {w : TypeExpr} {t : TypeTree}

/-- What the variables stand for is put in by a substitution. -/
theorem Denotes.subst (ρ : VarIdent → TypeTree) (h : D.Denotes vars w t) :
    D.Denotes (fun x => (vars x).subst ρ) w (t.subst ρ) := by
  have hlist : ∀ {ws ts}, List.Forall₂ (D.Denotes vars) ws ts → (∀ w ∈ ws, ∀ {t},
      D.Denotes vars w t → D.Denotes (fun x => (vars x).subst ρ) w (t.subst ρ)) →
      List.Forall₂ (D.Denotes fun x => (vars x).subst ρ) ws (ts.map (TypeTree.subst ρ)) :=
    fun h ih => List.forall₂_map_right_iff.mpr (forall₂_of_mem h fun w hw _ => ih w hw)
  induction w using TypeExpr.induction generalizing t with
  | named name args ih =>
    cases h with
    | prim hp => rw [subst_prim]; exact .prim hp
    | declared hname hdecl hargs =>
      rw [subst_mk (by simp), DeclKind.map_shape]
      exact .declared hname hdecl (hlist hargs ih)
  | var name => cases h; exact .var
  | pointer target ih => cases h with | pointer h => rw [subst_mk rfl]; exact .pointer (ih h)
  | array elem length ih => cases h with | array h => rw [subst_mk rfl]; exact .array (ih h)
  | tuple items ih => cases h with | tuple h => rw [subst_tuple]; exact .tuple (hlist h ih)
  | function params ret ihs ih =>
    cases h with
    | function hparams hret =>
      rw [subst_mk rfl]
      exact .function (hlist hparams ihs) (ih hret)
  | qualified q base ih => cases h with | qualified h => exact .qualified (ih h)

/-- A tree in which variables stand for themselves, read under an assignment. -/
theorem Denotes.read (ρ : VarIdent → TypeTree) (h : D.Denotes TypeTree.var w t) :
    D.Denotes ρ w (t.subst ρ) := by
  have hsubst := h.subst ρ
  simp only [subst_var] at hsubst
  exact hsubst

/-- A written type stands for one tree, which depends on what its named variables stand for. -/
theorem Denotes.unique {vars' : VarIdent → TypeTree} {t' : TypeTree} (h : D.Denotes vars w t)
    (h' : D.Denotes vars' w t') (hvars : ∀ n, vars (.named n) = vars' (.named n)) : t = t' := by
  have hlist : ∀ {ws ts ts'}, List.Forall₂ (D.Denotes vars) ws ts →
      List.Forall₂ (D.Denotes vars') ws ts' → (∀ w ∈ ws, ∀ {t t'}, D.Denotes vars w t →
        D.Denotes vars' w t' → t = t') → ts = ts' := by
    intro ws ts ts' hts hts' ih
    induction hts generalizing ts' with
    | nil => cases hts'; rfl
    | cons hw _ ih' =>
      cases hts' with
      | cons hw' hws' =>
        obtain ⟨hfirst, hrest⟩ := List.forall_mem_cons.mp ih
        rw [hfirst hw hw', ih' hws' hrest]
  induction w using TypeExpr.induction generalizing t t' with
  | named name args ih =>
    cases h with
    | prim hp =>
      cases h' with
      | prim hp' => rw [Option.some.inj (hp.symm.trans hp')]
      | declared hname' => rw [hname' rfl] at hp; cases hp
    | declared hname hdecl hargs =>
      cases h' with
      | prim hp' => rw [hname rfl] at hp'; cases hp'
      | declared hname' hdecl' hargs' =>
        have hk := Option.some.inj (hdecl.symm.trans hdecl')
        rw [(Prod.mk.inj hk).1, hlist hargs hargs' ih]
  | var name => cases h; cases h'; exact hvars name
  | pointer target ih =>
    cases h with | pointer h => cases h' with | pointer h' => rw [ih h h']
  | array elem length ih => cases h with | array h => cases h' with | array h' => rw [ih h h']
  | tuple items ih => cases h with | tuple h => cases h' with | tuple h' => rw [hlist h h' ih]
  | function params ret ihs ih =>
    cases h with
    | function hparams hret =>
      cases h' with
      | function hparams' hret' => rw [hlist hparams hparams' ihs, ih hret hret']
  | qualified q base ih =>
    cases h with | qualified h => cases h' with | qualified h' => exact ih h h'

/-- The error type cannot be written. -/
theorem Denotes.faultless (hvars : ∀ x, (vars x).Faultless) (h : D.Denotes vars w t) :
    t.Faultless := by
  have hlist : ∀ {ws ts}, List.Forall₂ (D.Denotes vars) ws ts → (∀ w ∈ ws, ∀ {t},
      D.Denotes vars w t → t.Faultless) → ∀ t ∈ ts, t.Faultless := by
    intro ws ts hts ih t ht
    obtain ⟨w, hw, hden⟩ := exists_mem_of_forall₂ hts ht
    exact ih w hw hden
  induction w using TypeExpr.induction generalizing t with
  | named name args ih =>
    cases h with
    | prim hp => exact faultless_prim.mpr (Prim.ne_error_of_ofName? hp)
    | @declared _ k _ trees hname hdecl hargs =>
      rw [faultless_mk, DeclKind.children_shape]
      exact ⟨by cases k <;> rfl, hlist hargs ih⟩
  | var name => cases h; exact hvars _
  | pointer target ih =>
    cases h with
    | pointer h => exact faultless_mk.mpr ⟨rfl, by simpa [Shape.children] using ih h⟩
  | array elem length ih =>
    cases h with
    | array h => exact faultless_mk.mpr ⟨rfl, by simpa [Shape.children] using ih h⟩
  | tuple items ih =>
    cases h with
    | tuple h => exact faultless_tuple.mpr (hlist h ih)
  | function params ret ihs ih =>
    cases h with
    | function hparams hret =>
      refine faultless_mk.mpr ⟨rfl, fun c hc => ?_⟩
      simp only [Shape.children, Signature.children, List.append_nil, List.mem_cons] at hc
      rcases hc with rfl | hc
      · exact ih hret
      · exact hlist hparams ihs c hc
  | qualified q base ih => cases h with | qualified h => exact ih h

end Declarations

/-! ## The judgement -/

/-- What the rules refer to. -/
structure Typing where
  declarations : Declarations
  /-- The type on record for an expression. -/
  exprType : ExprId → TypeTree
  /-- What the type variables of the program stand for. -/
  vars : VarIdent → TypeTree
  /-- A name that is not local can be used at a type. -/
  Uses : Name → TypeTree → Prop
  /-- What it means for two types to agree. -/
  Agrees : TypeTree → TypeTree → Prop
  /-- Whether functions that run at compile time can be called. -/
  callsMeta : Bool

/-- Local names with their types, the innermost first. -/
abbrev Env := List (Name × TypeTree)

namespace Typing

variable (J : Typing)

/-- A written type stands for a tree. -/
abbrev Denotes : TypeExpr → TypeTree → Prop := J.declarations.Denotes J.vars

/-- A parameter that is written with a type has that type. -/
def ParamAt (param : Param) (t : TypeTree) : Prop :=
  ∀ written, param.written = some written → J.Denotes written t

/-- A declared product is used at types for its parameters, and these are the types of its
fields. -/
structure ProductAt (name : Name) (p : ProductDecl) (args fields : List TypeTree) : Prop where
  declared : J.declarations.product? name = some p
  length_args : args.length = p.params.length
  fields : fields = p.fieldsAt J.vars args

end Typing

/-- The environment in which parameters are bound. -/
def Env.bindParams (Γ : Env) (params : List Param) (types : List TypeTree) : Env :=
  ((params.map Param.name).zip types).reverse ++ Γ

/-- Literals have fixed types; a suffix can make an integer any number and changes the width of a
floating-point number. -/
inductive LiteralHas : ExprForm → TypeTree → Prop
  | int {value : Nat} : LiteralHas (.int value none) (prim .i32)
  | intSuffix {value : Nat} {suffix : Name} {p : Prim} (h : Prim.ofName? suffix = some p)
      (hp : p.isNumeric = true) : LiteralHas (.int value (some suffix)) (prim p)
  | float {bits : Nat} : LiteralHas (.float bits none) (prim .f64)
  | floatSuffix {bits : Nat} {suffix : Name} {p : Prim} (h : Prim.ofName? suffix = some p)
      (hp : p.isFloat = true) : LiteralHas (.float bits (some suffix)) (prim p)
  | bool {value : Bool} : LiteralHas (.bool value) (prim .bool)
  | char {value : Char} : LiteralHas (.char value) (prim .c8)
  | string {value : String} : LiteralHas (.string value) (.mk (.pointer (prim .c8)))
  | unit : LiteralHas .unit (prim .unit)

mutual

/-- An expression has a type. -/
inductive HasType (J : Typing) : Env → Expr → TypeTree → Env → Prop
  | mk {Γ Δ : Env} {id : ExprId} {span : Span} {form : ExprForm}
      (h : FormHasType J Γ form (J.exprType id) Δ) :
      HasType J Γ (.mk id span form) (J.exprType id) Δ

/-- An expression has a type, by its form. -/
inductive FormHasType (J : Typing) : Env → ExprForm → TypeTree → Env → Prop
  | literal {Γ : Env} {form : ExprForm} {t : TypeTree} (h : LiteralHas form t) :
      FormHasType J Γ form t Γ
  | localName {Γ : Env} {name : Name} {t : TypeTree} (h : Γ.lookup name = some t) :
      FormHasType J Γ (.ident name) t Γ
  | globalName {Γ : Env} {name : Name} {t : TypeTree} (h : Γ.lookup name = none)
      (huse : J.Uses name t) : FormHasType J Γ (.ident name) t Γ
  | call {Γ Γ₁ Δ : Env} {callee : Expr} {args : List Expr} {f t : TypeTree} {ts : List TypeTree}
      {isMeta : Bool} (hcallee : HasType J Γ callee f Γ₁) (hargs : AllHaveType J Γ₁ args ts Δ)
      (hmeta : isMeta = true → J.callsMeta = true)
      (h : J.Agrees f (.mk (.function { ret := t, params := ts, isMeta }))) :
      FormHasType J Γ (.call callee args) t Δ
  | logical {Γ Γ₁ Δ : Env} {op : BinaryOp} {left right : Expr} {l r : TypeTree}
      (hop : op.traitName? = none) (hleft : HasType J Γ left l Γ₁) (hright : HasType J Γ₁ right r Δ)
      (hl : J.Agrees (prim .bool) l) (hr : J.Agrees (prim .bool) r) :
      FormHasType J Γ (.binary op left right) (prim .bool) Δ
  | comparison {Γ Γ₁ Δ : Env} {op : BinaryOp} {left right : Expr} {l r : TypeTree}
      (hop : op.isComparison = true) (hleft : HasType J Γ left l Γ₁)
      (hright : HasType J Γ₁ right r Δ) (h : J.Agrees l r) :
      FormHasType J Γ (.binary op left right) (prim .bool) Δ
  | arithmetic {Γ Γ₁ Δ : Env} {op : BinaryOp} {left right : Expr} {l r t : TypeTree}
      (hop : op.traitName?.isSome = true) (hcmp : op.isComparison = false)
      (hleft : HasType J Γ left l Γ₁) (hright : HasType J Γ₁ right r Δ) (h : J.Agrees l r)
      (hl : J.Agrees t l) (hr : J.Agrees t r) :
      FormHasType J Γ (.binary op left right) t Δ
  | neg {Γ Δ : Env} {operand : Expr} {u t : TypeTree} (hoperand : HasType J Γ operand u Δ)
      (h : J.Agrees t u) : FormHasType J Γ (.unary .neg operand) t Δ
  | not {Γ Δ : Env} {operand : Expr} {u : TypeTree} (hoperand : HasType J Γ operand u Δ)
      (h : J.Agrees (prim .bool) u) : FormHasType J Γ (.unary .not operand) (prim .bool) Δ
  | addressOf {Γ Δ : Env} {operand : Expr} {u : TypeTree} (hoperand : HasType J Γ operand u Δ) :
      FormHasType J Γ (.unary .addressOf operand) (.mk (.pointer u)) Δ
  | deref {Γ Δ : Env} {operand : Expr} {u t : TypeTree} (hoperand : HasType J Γ operand u Δ)
      (h : J.Agrees (.mk (.pointer t)) u) : FormHasType J Γ (.unary .deref operand) t Δ
  | field {Γ Δ : Env} {receiver : Expr} {field product : Name} {p : ProductDecl}
      {args fields : List TypeTree} {r t : TypeTree} {index : Nat}
      (hreceiver : HasType J Γ receiver r Δ) (hproduct : J.ProductAt product p args fields)
      (hfield : p.fieldNames.idxOf? (some field) = some index)
      (ht : fields[index]? = some t) (hr : J.Agrees (.mk (.product product args)) r) :
      FormHasType J Γ (.field receiver field) t Δ
  | construct {Γ Δ : Env} {name : Name} {items : List Expr} {p : ProductDecl}
      {args fields ts : List TypeTree} (hitems : AllHaveType J Γ items ts Δ)
      (hproduct : J.ProductAt name p args fields) (h : List.Forall₂ J.Agrees fields ts) :
      FormHasType J Γ (.construct name items) (p.result name args) Δ
  | tuple {Γ Δ : Env} {items : List Expr} {ts : List TypeTree}
      (hitems : AllHaveType J Γ items ts Δ) : FormHasType J Γ (.tuple items) (TypeTree.tuple ts) Δ
  | array {Γ Δ : Env} {items : List Expr} {ts : List TypeTree} {elem : TypeTree}
      (hitems : AllHaveType J Γ items ts Δ) (h : ∀ t ∈ ts, J.Agrees elem t) :
      FormHasType J Γ (.array items) (.mk (.array elem (some items.length))) Δ
  | block {Γ Δ : Env} {items : List Expr} {ts : List TypeTree}
      (hitems : AllHaveType J Γ items ts Δ) :
      FormHasType J Γ (.block items) (ts.getLastD (prim .unit)) Γ
  | ifThen {Γ Γ₁ Δ : Env} {condition thenBranch : Expr} {c t : TypeTree}
      (hcondition : HasType J Γ condition c Γ₁) (hthen : HasType J Γ₁ thenBranch t Δ)
      (hc : J.Agrees (prim .bool) c) (ht : J.Agrees (prim .unit) t) :
      FormHasType J Γ (.ifThen condition thenBranch) (prim .unit) Δ
  | ifElse {Γ Γ₁ Γ₂ Δ : Env} {condition thenBranch elseBranch : Expr} {c t e : TypeTree}
      (hcondition : HasType J Γ condition c Γ₁) (hthen : HasType J Γ₁ thenBranch t Γ₂)
      (helse : HasType J Γ₂ elseBranch e Δ) (hc : J.Agrees (prim .bool) c)
      (h : J.Agrees t e) : FormHasType J Γ (.ifElse condition thenBranch elseBranch) t Δ
  | select {Γ Δ : Env} {scrutinee : Expr} {arms : List Arm} {s t : TypeTree}
      (hscrutinee : HasType J Γ scrutinee s Δ) (harms : ArmsHaveType J s t Δ arms) :
      FormHasType J Γ (.select scrutinee arms) t Δ
  | loop {Γ Γ₁ Δ : Env} {condition body : Expr} {c b : TypeTree}
      (hcondition : HasType J Γ condition c Γ₁) (hbody : HasType J Γ₁ body b Δ)
      (hc : J.Agrees (prim .bool) c) : FormHasType J Γ (.loop condition body) (prim .unit) Δ
  | define {Γ Δ : Env} {name : Name} {init : Expr} {t : TypeTree} (hinit : HasType J Γ init t Δ) :
      FormHasType J Γ (.define name none init) (prim .unit) ((name, t) :: Δ)
  | defineAs {Γ Δ : Env} {name : Name} {written : TypeExpr} {init : Expr} {t u : TypeTree}
      (hinit : HasType J Γ init u Δ) (hwritten : J.Denotes written t) (h : J.Agrees t u) :
      FormHasType J Γ (.define name (some written) init) (prim .unit) ((name, t) :: Δ)
  | assign {Γ Γ₁ Δ : Env} {target value : Expr} {t v : TypeTree}
      (htarget : HasType J Γ target t Γ₁) (hvalue : HasType J Γ₁ value v Δ)
      (h : J.Agrees t v) : FormHasType J Γ (.assign target value) (prim .unit) Δ
  | ascribe {Γ Δ : Env} {expr : Expr} {written : TypeExpr} {t u : TypeTree}
      (hexpr : HasType J Γ expr u Δ) (hwritten : J.Denotes written t) (h : J.Agrees t u) :
      FormHasType J Γ (.ascribe expr written) t Δ
  | lambda {Γ Δ : Env} {params : List Param} {body : Expr} {ts : List TypeTree} {t : TypeTree}
      (hparams : List.Forall₂ J.ParamAt params ts)
      (hbody : HasType J (Γ.bindParams params ts) body t Δ) :
      FormHasType J Γ (.lambda params body) (.mk (.function { ret := t, params := ts })) Γ

/-- Expressions have types, one after the other. -/
inductive AllHaveType (J : Typing) : Env → List Expr → List TypeTree → Env → Prop
  | nil {Γ : Env} : AllHaveType J Γ [] [] Γ
  | cons {Γ Γ₁ Δ : Env} {e : Expr} {rest : List Expr} {t : TypeTree} {ts : List TypeTree}
      (he : HasType J Γ e t Γ₁) (hrest : AllHaveType J Γ₁ rest ts Δ) :
      AllHaveType J Γ (e :: rest) (t :: ts) Δ

/-- The arms of a match on a value of type `s` have type `t`, each in a scope of its own. -/
inductive ArmsHaveType (J : Typing) : TypeTree → TypeTree → Env → List Arm → Prop
  | nil {s t : TypeTree} {Γ : Env} : ArmsHaveType J s t Γ []
  | cons {s t b : TypeTree} {Γ Γ₁ Δ : Env} {pattern : Pattern} {body : Expr} {span : Span}
      {rest : List Arm} (hpattern : PatternHasType J Γ pattern s Γ₁)
      (hbody : HasType J Γ₁ body b Δ) (h : J.Agrees t b) (hrest : ArmsHaveType J s t Γ rest) :
      ArmsHaveType J s t Γ (.mk pattern body span :: rest)

/-- A pattern fits values of a type and binds its names. -/
inductive PatternHasType (J : Typing) : Env → Pattern → TypeTree → Env → Prop
  | wildcard {Γ : Env} {id : PatternId} {s : TypeTree} : PatternHasType J Γ (.wildcard id) s Γ
  | binding {Γ : Env} {id : PatternId} {name : Name} {s : TypeTree} :
      PatternHasType J Γ (.binding id name) s ((name, s) :: Γ)
  | literal {Γ Δ : Env} {id : PatternId} {expr : Expr} {s t : TypeTree}
      (hexpr : HasType J Γ expr t Δ) (h : J.Agrees s t) :
      PatternHasType J Γ (.literal id expr) s Δ
  | tuple {Γ Δ : Env} {id : PatternId} {items : List Pattern} {s : TypeTree} {ts : List TypeTree}
      (h : J.Agrees s (TypeTree.tuple ts)) (hitems : PatternsHaveType J Γ items ts Δ) :
      PatternHasType J Γ (.tuple id items) s Δ
  | tag {Γ Δ : Env} {id : PatternId} {name : Name} {items : List Pattern} {s : TypeTree}
      {p : ProductDecl} {args fields : List TypeTree} (hproduct : J.ProductAt name p args fields)
      (h : J.Agrees s (p.result name args)) (hitems : PatternsHaveType J Γ items fields Δ) :
      PatternHasType J Γ (.tag id name items) s Δ

/-- Patterns fit values of types, one by one. -/
inductive PatternsHaveType (J : Typing) : Env → List Pattern → List TypeTree → Env → Prop
  | nil {Γ : Env} : PatternsHaveType J Γ [] [] Γ
  | cons {Γ Γ₁ Δ : Env} {p : Pattern} {rest : List Pattern} {t : TypeTree} {ts : List TypeTree}
      (hp : PatternHasType J Γ p t Γ₁) (hrest : PatternsHaveType J Γ₁ rest ts Δ) :
      PatternsHaveType J Γ (p :: rest) (t :: ts) Δ

end

/-- The body of a function against the types of its parameters and its result. -/
structure BodyHasType (J : Typing) (f : FunctionDecl) (body : Expr) (params : List TypeTree)
    (ret : TypeTree) : Prop where
  paramsAt : List.Forall₂ J.ParamAt f.params params
  retAt : ∀ written, f.ret = some written → J.Denotes written ret
  bodyAt : ∃ t Δ, HasType J (Env.bindParams [] f.params params) body t Δ ∧ J.Agrees ret t

end ConstraintTyping
