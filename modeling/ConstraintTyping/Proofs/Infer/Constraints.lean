import ConstraintTyping.Proofs.Infer.Typing
import ConstraintTyping.Proofs.Types.Variables

/-!
# Generating constraints, without a store

`Finds W S Γ e t S' Δ` says that a walk over an expression gives it a type and goes from what was
found before to what is found then: variables that are in use, equations that were asked for, types
on record and calls of constrained functions.  Types are trees here.  Each rule says which variables
it introduces and which equations it adds; nothing is solved.

The rules are those of the walk over a store, read as trees.  What solving the equations gives, and
which typings solve them, is a matter of this judgement alone.
-/

namespace ConstraintTyping

open TypeTree

/-- All variables of a tree are among `V`. -/
def TypeTree.Over (t : TypeTree) (V : Set VarIdent) : Prop := ∀ x, t.Occurs x → x ∈ V

/-- All variables of an environment are among `V`. -/
def Env.Over (Γ : Env) (V : Set VarIdent) : Prop := ∀ b ∈ Γ, b.2.Over V

/-- An environment under a replacement of variables. -/
def Env.subst (σ : VarIdent → TypeTree) (Γ : Env) : Env := Γ.map fun b => (b.1, b.2.subst σ)

/-- What has been found up to some point of a walk. -/
structure Found where
  /-- The variables that are in use. -/
  vars : Set VarIdent
  equations : List (TypeTree × TypeTree)
  records : List (ExprId × TypeTree)
  /-- Calls of functions that carry constraints, with the type of the function. -/
  sites : List (ExprId × TypeTree)

namespace Found

variable (S S' : Found)

/-- Ask for two types to be equal. -/
def ask (l r : TypeTree) : Found := { S with equations := S.equations ++ [(l, r)] }

/-- Ask for several pairs of types to be equal. -/
def askAll (pairs : List (TypeTree × TypeTree)) : Found :=
  { S with equations := S.equations ++ pairs }

/-- Note the type of an expression. -/
def record (id : ExprId) (t : TypeTree) : Found := { S with records := S.records ++ [(id, t)] }

/-- Note a call whose function carries constraints. -/
def site (id : ExprId) (f : TypeTree) : Found := { S with sites := S.sites ++ [(id, f)] }

/-- More may be found later, and nothing is taken back. -/
structure Grows : Prop where
  vars : S.vars ⊆ S'.vars
  equations : S.equations <+: S'.equations
  records : S.records <+: S'.records
  sites : S.sites <+: S'.sites

/-- Only variables come into use. -/
structure Widens : Prop where
  vars : S.vars ⊆ S'.vars
  equations : S'.equations = S.equations
  records : S'.records = S.records
  sites : S'.sites = S.sites

/-- Distinct fresh variables come into use. -/
structure Introduces (xs : List VarIdent) : Prop extends Widens S S' where
  nodup : xs.Nodup
  fresh : ∀ x ∈ xs, ∃ k, x = .fresh k
  notMem : ∀ x ∈ xs, x ∉ S.vars
  mem : ∀ x ∈ xs, x ∈ S'.vars

/-- A type is copied at fresh variables. -/
structure Copies (t u : TypeTree) : Prop extends Widens S S' where
  renames : ∃ ρ, StoreM.Renames t S.vars S'.vars ρ ∧ u = t.subst fun x => var (ρ x)

/-- A written type is read, its variables standing for themselves. -/
structure Writes (D : Declarations) (written : TypeExpr) (t : TypeTree) : Prop
    extends Widens S S' where
  denotes : D.Denotes var written t
  typeOver : t.Over S'.vars

/-- A declared product is opened at fresh variables for its parameters. -/
structure Opens (D : Declarations) (name : Name) (p : ProductDecl) (xs : List VarIdent) : Prop
    extends Introduces S S' xs where
  declared : D.product? name = some p
  length_eq : xs.length = p.params.length
  fieldsOver : ∀ t ∈ p.fieldsAt var (xs.map var), t.Over S'.vars
  resultOver : (p.result name (xs.map var)).Over S'.vars

/-- Everything found is over the variables that are in use. -/
structure Closed : Prop where
  equations : ∀ p ∈ S.equations, p.1.Over S.vars ∧ p.2.Over S.vars
  records : ∀ r ∈ S.records, r.2.Over S.vars

/-- A walk that gives a type and leaves an environment: it goes on from what was found, and all that
is over the variables that are in use then. -/
structure Reaches (t : TypeTree) (Δ : Env) : Prop extends Grows S S' where
  closed : S'.Closed
  typeOver : t.Over S'.vars
  envOver : Δ.Over S'.vars

end Found

/-- The type of a name that is not local. -/
structure Scheme where
  type : TypeTree
  /-- Whether each use is at fresh variables; otherwise the type is used as it is. -/
  general : Bool

/-- What a walk refers to. -/
structure Surroundings where
  declarations : Declarations
  names : Name → Option Scheme

/-- The fields of a product at variables for its parameters. -/
abbrev ProductDecl.openFields (p : ProductDecl) (xs : List VarIdent) : List TypeTree :=
  p.fieldsAt var (xs.map var)

/-- A call: a callee of unknown shape must be a function of these arguments, one of known shape fixes
their number and types. -/
inductive CallFinds (id : ExprId) (S : Found) : TypeTree → List TypeTree → TypeTree → Found → Prop
  | unknown {S₁ : Found} {f : TypeTree} {ts : List TypeTree} {x : VarIdent}
      (hf : f.shape.signature? = none) (hx : S.Introduces S₁ [x]) :
      CallFinds id S f ts (var x) (S₁.ask f (.mk (.function { ret := var x, params := ts })))
  | known {S₁ S₂ : Found} {sig : Signature TypeTree} {ts : List TypeTree} {x : VarIdent}
      (hfits : ts.length = sig.params.length ∨ sig.isVariadic = true)
      (hsite : S₁ = if sig.givens.isEmpty then S.askAll (sig.params.zip ts)
        else (S.askAll (sig.params.zip ts)).site id (.mk (.function sig)))
      (hx : S₁.Introduces S₂ [x]) :
      CallFinds id S (.mk (.function sig)) ts (var x) (S₂.ask (var x) sig.ret)

/-- The parameters of a lambda, written with types or not. -/
inductive ParamsFind (D : Declarations) : Found → List Param → List TypeTree → Found → Prop
  | nil {S : Found} : ParamsFind D S [] [] S
  | written {S S₁ S' : Found} {p : Param} {rest : List Param} {w : TypeExpr} {t : TypeTree}
      {ts : List TypeTree} (hp : p.written = some w) (ht : S.Writes S₁ D w t)
      (hrest : ParamsFind D S₁ rest ts S') : ParamsFind D S (p :: rest) (t :: ts) S'
  | plain {S S₁ S' : Found} {p : Param} {rest : List Param} {x : VarIdent} {ts : List TypeTree}
      (hp : p.written = none) (hx : S.Introduces S₁ [x]) (hrest : ParamsFind D S₁ rest ts S') :
      ParamsFind D S (p :: rest) (var x :: ts) S'

mutual

/-- An expression is walked. -/
inductive Finds (W : Surroundings) : Found → Env → Expr → TypeTree → Found → Env → Prop
  | mk {S S' : Found} {Γ Δ : Env} {id : ExprId} {span : Span} {form : ExprForm} {t : TypeTree}
      (h : FormFinds W id S Γ form t S' Δ) (hreaches : S.Reaches S' t Δ) :
      Finds W S Γ (.mk id span form) t (S'.record id t) Δ

/-- An expression is walked, by its form. -/
inductive FormFinds (W : Surroundings) : ExprId → Found → Env → ExprForm → TypeTree → Found →
    Env → Prop
  | literal {id : ExprId} {S : Found} {Γ : Env} {form : ExprForm} {t : TypeTree}
      (h : LiteralHas form t) : FormFinds W id S Γ form t S Γ
  | localName {id : ExprId} {S : Found} {Γ : Env} {name : Name} {t : TypeTree}
      (h : Γ.lookup name = some t) : FormFinds W id S Γ (.ident name) t S Γ
  | generalName {id : ExprId} {S S' : Found} {Γ : Env} {name : Name} {g t : TypeTree}
      (h : Γ.lookup name = none) (hname : W.names name = some ⟨g, true⟩) (ht : S.Copies S' g t) :
      FormFinds W id S Γ (.ident name) t S' Γ
  | fixedName {id : ExprId} {S : Found} {Γ : Env} {name : Name} {t : TypeTree}
      (h : Γ.lookup name = none) (hname : W.names name = some ⟨t, false⟩) :
      FormFinds W id S Γ (.ident name) t S Γ
  | call {id : ExprId} {S S₁ S₂ S' : Found} {Γ Γ₁ Δ : Env} {callee : Expr} {args : List Expr}
      {f t : TypeTree} {ts : List TypeTree} (hcallee : Finds W S Γ callee f S₁ Γ₁)
      (hargs : AllFind W S₁ Γ₁ args ts S₂ Δ) (hcall : CallFinds id S₂ f ts t S') :
      FormFinds W id S Γ (.call callee args) t S' Δ
  | logical {id : ExprId} {S S₁ S₂ : Found} {Γ Γ₁ Δ : Env} {op : BinaryOp} {left right : Expr}
      {l r : TypeTree} (hop : op.traitName? = none) (hleft : Finds W S Γ left l S₁ Γ₁)
      (hright : Finds W S₁ Γ₁ right r S₂ Δ) :
      FormFinds W id S Γ (.binary op left right) (prim .bool)
        ((S₂.ask (prim .bool) l).ask (prim .bool) r) Δ
  | overloaded {id : ExprId} {S S₁ S₂ S₃ : Found} {Γ Γ₁ Δ : Env} {op : BinaryOp}
      {left right : Expr} {l r : TypeTree} {x : VarIdent} (hop : op.traitName?.isSome = true)
      (hleft : Finds W S Γ left l S₁ Γ₁) (hright : Finds W S₁ Γ₁ right r S₂ Δ)
      (hx : S₂.Introduces S₃ [x]) :
      FormFinds W id S Γ (.binary op left right) (if op.isComparison then prim .bool else var x)
        ((S₃.ask (var x) l).ask (var x) r) Δ
  | neg {id : ExprId} {S S₁ S₂ : Found} {Γ Δ : Env} {operand : Expr} {u : TypeTree} {x : VarIdent}
      (hoperand : Finds W S Γ operand u S₁ Δ) (hx : S₁.Introduces S₂ [x]) :
      FormFinds W id S Γ (.unary .neg operand) (var x) (S₂.ask (var x) u) Δ
  | not {id : ExprId} {S S₁ : Found} {Γ Δ : Env} {operand : Expr} {u : TypeTree}
      (hoperand : Finds W S Γ operand u S₁ Δ) :
      FormFinds W id S Γ (.unary .not operand) (prim .bool) (S₁.ask (prim .bool) u) Δ
  | addressOf {id : ExprId} {S S₁ : Found} {Γ Δ : Env} {operand : Expr} {u : TypeTree}
      (hoperand : Finds W S Γ operand u S₁ Δ) :
      FormFinds W id S Γ (.unary .addressOf operand) (.mk (.pointer u)) S₁ Δ
  | deref {id : ExprId} {S S₁ S₂ : Found} {Γ Δ : Env} {operand : Expr} {u : TypeTree}
      {x : VarIdent} (hoperand : Finds W S Γ operand u S₁ Δ) (hx : S₁.Introduces S₂ [x]) :
      FormFinds W id S Γ (.unary .deref operand) (var x) (S₂.ask (.mk (.pointer (var x))) u) Δ
  | field {id : ExprId} {S S₁ S₂ : Found} {Γ Δ : Env} {receiver : Expr} {field product : Name}
      {p : ProductDecl} {xs : List VarIdent} {r t : TypeTree} {index : Nat}
      (hreceiver : Finds W S Γ receiver r S₁ Δ)
      (howner : ∀ name q, W.declarations.product? name = some q → some field ∈ q.fieldNames →
        name = product)
      (hopens : S₁.Opens S₂ W.declarations product p xs)
      (hfield : p.fieldNames.idxOf? (some field) = some index)
      (ht : (p.openFields xs)[index]? = some t) :
      FormFinds W id S Γ (.field receiver field) t
        (S₂.ask (.mk (.product product (xs.map var))) r) Δ
  | construct {id : ExprId} {S S₁ S₂ : Found} {Γ Δ : Env} {name : Name} {items : List Expr}
      {p : ProductDecl} {xs : List VarIdent} {ts : List TypeTree}
      (hitems : AllFind W S Γ items ts S₁ Δ) (hopens : S₁.Opens S₂ W.declarations name p xs)
      (hlen : (p.openFields xs).length = ts.length) :
      FormFinds W id S Γ (.construct name items) (p.result name (xs.map var))
        (S₂.askAll ((p.openFields xs).zip ts)) Δ
  | tuple {id : ExprId} {S S' : Found} {Γ Δ : Env} {items : List Expr} {ts : List TypeTree}
      (hitems : AllFind W S Γ items ts S' Δ) :
      FormFinds W id S Γ (.tuple items) (TypeTree.tuple ts) S' Δ
  | array {id : ExprId} {S S₁ S' : Found} {Γ Δ : Env} {items : List Expr} {ts : List TypeTree}
      {x : VarIdent} (hx : S.Introduces S₁ [x])
      (hitems : ElementsFind W (var x) S₁ Γ items ts S' Δ) :
      FormFinds W id S Γ (.array items) (.mk (.array (var x) (some items.length))) S' Δ
  | block {id : ExprId} {S S' : Found} {Γ Δ : Env} {items : List Expr} {ts : List TypeTree}
      (hitems : AllFind W S Γ items ts S' Δ) :
      FormFinds W id S Γ (.block items) (ts.getLastD (prim .unit)) S' Γ
  | ifThen {id : ExprId} {S S₁ S₂ : Found} {Γ Γ₁ Δ : Env} {condition thenBranch : Expr}
      {c t : TypeTree} (hcondition : Finds W S Γ condition c S₁ Γ₁)
      (hthen : Finds W (S₁.ask (prim .bool) c) Γ₁ thenBranch t S₂ Δ) :
      FormFinds W id S Γ (.ifThen condition thenBranch) (prim .unit) (S₂.ask (prim .unit) t) Δ
  | ifElse {id : ExprId} {S S₁ S₂ S₃ : Found} {Γ Γ₁ Γ₂ Δ : Env}
      {condition thenBranch elseBranch : Expr} {c t e : TypeTree}
      (hcondition : Finds W S Γ condition c S₁ Γ₁)
      (hthen : Finds W (S₁.ask (prim .bool) c) Γ₁ thenBranch t S₂ Γ₂)
      (helse : Finds W S₂ Γ₂ elseBranch e S₃ Δ) :
      FormFinds W id S Γ (.ifElse condition thenBranch elseBranch) t (S₃.ask t e) Δ
  | select {id : ExprId} {S S₁ S₂ S' : Found} {Γ Δ : Env} {scrutinee : Expr} {arms : List Arm}
      {s : TypeTree} {x : VarIdent} (hscrutinee : Finds W S Γ scrutinee s S₁ Δ)
      (hx : S₁.Introduces S₂ [x]) (harms : ArmsFind W s (var x) S₂ Δ arms S') :
      FormFinds W id S Γ (.select scrutinee arms) (var x) S' Δ
  | loop {id : ExprId} {S S₁ S' : Found} {Γ Γ₁ Δ : Env} {condition body : Expr} {c b : TypeTree}
      (hcondition : Finds W S Γ condition c S₁ Γ₁)
      (hbody : Finds W (S₁.ask (prim .bool) c) Γ₁ body b S' Δ) :
      FormFinds W id S Γ (.loop condition body) (prim .unit) S' Δ
  | define {id : ExprId} {S S' : Found} {Γ Δ : Env} {name : Name} {init : Expr} {t : TypeTree}
      (hinit : Finds W S Γ init t S' Δ) :
      FormFinds W id S Γ (.define name none init) (prim .unit) S' ((name, t) :: Δ)
  | defineAs {id : ExprId} {S S₁ S₂ : Found} {Γ Δ : Env} {name : Name} {written : TypeExpr}
      {init : Expr} {t u : TypeTree} (hinit : Finds W S Γ init u S₁ Δ)
      (hwritten : S₁.Writes S₂ W.declarations written t) :
      FormFinds W id S Γ (.define name (some written) init) (prim .unit) (S₂.ask t u)
        ((name, t) :: Δ)
  | assign {id : ExprId} {S S₁ S₂ : Found} {Γ Γ₁ Δ : Env} {target value : Expr} {t v : TypeTree}
      (htarget : Finds W S Γ target t S₁ Γ₁) (hvalue : Finds W S₁ Γ₁ value v S₂ Δ) :
      FormFinds W id S Γ (.assign target value) (prim .unit) (S₂.ask t v) Δ
  | ascribe {id : ExprId} {S S₁ S₂ : Found} {Γ Δ : Env} {expr : Expr} {written : TypeExpr}
      {t u : TypeTree} (hexpr : Finds W S Γ expr u S₁ Δ)
      (hwritten : S₁.Writes S₂ W.declarations written t) :
      FormFinds W id S Γ (.ascribe expr written) t (S₂.ask t u) Δ
  | lambda {id : ExprId} {S S₁ S' : Found} {Γ Δ : Env} {params : List Param} {body : Expr}
      {ts : List TypeTree} {t : TypeTree} (hparams : ParamsFind W.declarations S params ts S₁)
      (hbody : Finds W S₁ (Γ.bindParams params ts) body t S' Δ) :
      FormFinds W id S Γ (.lambda params body) (.mk (.function { ret := t, params := ts })) S' Γ

/-- Expressions are walked, one after the other. -/
inductive AllFind (W : Surroundings) : Found → Env → List Expr → List TypeTree → Found → Env → Prop
  | nil {S : Found} {Γ : Env} : AllFind W S Γ [] [] S Γ
  | cons {S S₁ S' : Found} {Γ Γ₁ Δ : Env} {e : Expr} {rest : List Expr} {t : TypeTree}
      {ts : List TypeTree} (he : Finds W S Γ e t S₁ Γ₁) (hrest : AllFind W S₁ Γ₁ rest ts S' Δ) :
      AllFind W S Γ (e :: rest) (t :: ts) S' Δ

/-- The elements of an array are walked, each of which must have the type of the elements. -/
inductive ElementsFind (W : Surroundings) : TypeTree → Found → Env → List Expr → List TypeTree →
    Found → Env → Prop
  | nil {elem : TypeTree} {S : Found} {Γ : Env} : ElementsFind W elem S Γ [] [] S Γ
  | cons {elem : TypeTree} {S S₁ S' : Found} {Γ Γ₁ Δ : Env} {e : Expr} {rest : List Expr}
      {t : TypeTree} {ts : List TypeTree} (he : Finds W S Γ e t S₁ Γ₁)
      (hrest : ElementsFind W elem (S₁.ask elem t) Γ₁ rest ts S' Δ) :
      ElementsFind W elem S Γ (e :: rest) (t :: ts) S' Δ

/-- The arms of a match on a value of type `s` are walked, each of which must have type `t`. -/
inductive ArmsFind (W : Surroundings) : TypeTree → TypeTree → Found → Env → List Arm → Found → Prop
  | nil {s t : TypeTree} {S : Found} {Γ : Env} : ArmsFind W s t S Γ [] S
  | cons {s t b : TypeTree} {S S₁ S₂ S' : Found} {Γ Γ₁ Δ : Env} {pattern : Pattern} {body : Expr}
      {span : Span} {rest : List Arm} (hpattern : PatternFinds W S Γ pattern s S₁ Γ₁)
      (hbody : Finds W S₁ Γ₁ body b S₂ Δ) (hrest : ArmsFind W s t (S₂.ask t b) Γ rest S') :
      ArmsFind W s t S Γ (.mk pattern body span :: rest) S'

/-- A pattern is walked against the type of a value. -/
inductive PatternFinds (W : Surroundings) : Found → Env → Pattern → TypeTree → Found → Env → Prop
  | wildcard {S : Found} {Γ : Env} {id : PatternId} {s : TypeTree} :
      PatternFinds W S Γ (.wildcard id) s S Γ
  | binding {S : Found} {Γ : Env} {id : PatternId} {name : Name} {s : TypeTree} :
      PatternFinds W S Γ (.binding id name) s S ((name, s) :: Γ)
  | literal {S S₁ : Found} {Γ Δ : Env} {id : PatternId} {expr : Expr} {s t : TypeTree}
      (hexpr : Finds W S Γ expr t S₁ Δ) :
      PatternFinds W S Γ (.literal id expr) s (S₁.ask s t) Δ
  | tuple {S S₁ S' : Found} {Γ Δ : Env} {id : PatternId} {items : List Pattern} {s : TypeTree}
      {xs : List VarIdent} (hxs : S.Introduces S₁ xs)
      (hitems : PatternsFind W (S₁.ask s (TypeTree.tuple (xs.map var))) Γ items (xs.map var) S' Δ) :
      PatternFinds W S Γ (.tuple id items) s S' Δ
  | tag {S S₁ S' : Found} {Γ Δ : Env} {id : PatternId} {name : Name} {items : List Pattern}
      {s : TypeTree} {p : ProductDecl} {xs : List VarIdent}
      (hopens : S.Opens S₁ W.declarations name p xs)
      (hitems : PatternsFind W (S₁.ask s (p.result name (xs.map var))) Γ items (p.openFields xs)
        S' Δ) :
      PatternFinds W S Γ (.tag id name items) s S' Δ

/-- Patterns are walked against the types of values, one by one. -/
inductive PatternsFind (W : Surroundings) : Found → Env → List Pattern → List TypeTree → Found →
    Env → Prop
  | nil {S : Found} {Γ : Env} : PatternsFind W S Γ [] [] S Γ
  | cons {S S₁ S' : Found} {Γ Γ₁ Δ : Env} {p : Pattern} {rest : List Pattern} {t : TypeTree}
      {ts : List TypeTree} (hp : PatternFinds W S Γ p t S₁ Γ₁)
      (hrest : PatternsFind W S₁ Γ₁ rest ts S' Δ) :
      PatternsFind W S Γ (p :: rest) (t :: ts) S' Δ

end

/-! ## Growth -/

theorem TypeTree.Over.mono {t : TypeTree} {V V' : Set VarIdent} (h : t.Over V) (hV : V ⊆ V') :
    t.Over V' :=
  fun x hx => hV (h x hx)

theorem Env.Over.mono {Γ : Env} {V V' : Set VarIdent} (h : Γ.Over V) (hV : V ⊆ V') : Γ.Over V' :=
  fun b hb => (h b hb).mono hV

namespace Found

variable {S S₁ S₂ S' : Found} {t : TypeTree} {Δ : Env}

theorem Grows.refl (S : Found) : S.Grows S :=
  ⟨subset_rfl, List.prefix_rfl, List.prefix_rfl, List.prefix_rfl⟩

theorem Grows.trans (h : S.Grows S₁) (h' : S₁.Grows S₂) : S.Grows S₂ :=
  ⟨h.vars.trans h'.vars, h.equations.trans h'.equations, h.records.trans h'.records,
    h.sites.trans h'.sites⟩

theorem Widens.grows (h : S.Widens S') : S.Grows S' :=
  ⟨h.vars, h.equations ▸ List.prefix_rfl, h.records ▸ List.prefix_rfl,
    h.sites ▸ List.prefix_rfl⟩

theorem Widens.refl (S : Found) : S.Widens S := ⟨subset_rfl, rfl, rfl, rfl⟩

theorem Widens.trans (h : S.Widens S₁) (h' : S₁.Widens S₂) : S.Widens S₂ :=
  ⟨h.vars.trans h'.vars, h'.equations.trans h.equations, h'.records.trans h.records,
    h'.sites.trans h.sites⟩

theorem grows_ask (S : Found) (l r : TypeTree) : S.Grows (S.ask l r) :=
  ⟨subset_rfl, List.prefix_append _ _, List.prefix_rfl, List.prefix_rfl⟩

theorem grows_askAll (S : Found) (pairs : List (TypeTree × TypeTree)) : S.Grows (S.askAll pairs) :=
  ⟨subset_rfl, List.prefix_append _ _, List.prefix_rfl, List.prefix_rfl⟩

theorem grows_record (S : Found) (id : ExprId) (t : TypeTree) : S.Grows (S.record id t) :=
  ⟨subset_rfl, List.prefix_rfl, List.prefix_append _ _, List.prefix_rfl⟩

theorem grows_site (S : Found) (id : ExprId) (f : TypeTree) : S.Grows (S.site id f) :=
  ⟨subset_rfl, List.prefix_rfl, List.prefix_rfl, List.prefix_append _ _⟩

theorem mem_ask_of_grows {l r : TypeTree} (h : (S.ask l r).Grows S') : (l, r) ∈ S'.equations :=
  h.equations.subset (List.mem_append_right _ (List.mem_singleton_self _))

theorem mem_askAll_of_grows {pairs : List (TypeTree × TypeTree)} (h : (S.askAll pairs).Grows S')
    {p : TypeTree × TypeTree} (hp : p ∈ pairs) : p ∈ S'.equations :=
  h.equations.subset (List.mem_append_right _ hp)

theorem Reaches.record {id : ExprId} (h : S.Reaches S' t Δ) : S.Reaches (S'.record id t) t Δ where
  toGrows := h.toGrows.trans (grows_record S' id t)
  closed :=
    { equations := h.closed.equations
      records := fun r hr => by
        rcases List.mem_append.mp hr with hr | hr
        · exact h.closed.records r hr
        · rw [List.mem_singleton] at hr
          rw [hr]
          exact h.typeOver }
  typeOver := h.typeOver
  envOver := h.envOver

end Found

section Growth

variable {W : Surroundings} {S S' : Found} {Γ Δ : Env}

theorem Finds.reaches {e : Expr} {t : TypeTree} (h : Finds W S Γ e t S' Δ) : S.Reaches S' t Δ := by
  cases h with
  | mk _ hreaches => exact hreaches.record

theorem Finds.grows {e : Expr} {t : TypeTree} (h : Finds W S Γ e t S' Δ) : S.Grows S' :=
  h.reaches.toGrows

theorem CallFinds.grows {id : ExprId} {f t : TypeTree} {ts : List TypeTree}
    (h : CallFinds id S f ts t S') : S.Grows S' := by
  cases h with
  | unknown _ hx => exact hx.toWidens.grows.trans (Found.grows_ask ..)
  | known _ hsite hx =>
    refine Found.Grows.trans ?_ (hx.toWidens.grows.trans (Found.grows_ask ..))
    rw [hsite]
    split
    · exact Found.grows_askAll ..
    · exact (Found.grows_askAll ..).trans (Found.grows_site ..)

theorem ParamsFind.widens {D : Declarations} {params : List Param} {ts : List TypeTree}
    (h : ParamsFind D S params ts S') : S.Widens S' := by
  induction h with
  | nil => exact .refl _
  | written _ ht _ ih => exact ht.toWidens.trans ih
  | plain _ hx _ ih => exact hx.toWidens.trans ih

theorem AllFind.grows {es : List Expr} {ts : List TypeTree} (h : AllFind W S Γ es ts S' Δ) :
    S.Grows S' := by
  induction es generalizing S Γ ts with
  | nil => cases h; exact .refl _
  | cons e rest ih => cases h with | cons he hrest => exact he.grows.trans (ih hrest)

theorem ElementsFind.grows {elem : TypeTree} {es : List Expr} {ts : List TypeTree}
    (h : ElementsFind W elem S Γ es ts S' Δ) : S.Grows S' := by
  induction es generalizing S Γ ts with
  | nil => cases h; exact .refl _
  | cons e rest ih =>
    cases h with
    | cons he hrest => exact (he.grows.trans (Found.grows_ask ..)).trans (ih hrest)

mutual

theorem PatternFinds.grows {p : Pattern} {s : TypeTree} {S S' : Found} {Γ Δ : Env}
    (h : PatternFinds W S Γ p s S' Δ) : S.Grows S' := by
  cases h with
  | wildcard => exact .refl _
  | binding => exact .refl _
  | literal hexpr => exact hexpr.grows.trans (Found.grows_ask ..)
  | tuple hxs hitems =>
    exact (hxs.toWidens.grows.trans (Found.grows_ask ..)).trans hitems.grows
  | tag hopens hitems =>
    exact (hopens.toWidens.grows.trans (Found.grows_ask ..)).trans hitems.grows

theorem PatternsFind.grows {ps : List Pattern} {ts : List TypeTree} {S S' : Found} {Γ Δ : Env}
    (h : PatternsFind W S Γ ps ts S' Δ) : S.Grows S' := by
  cases h with
  | nil => exact .refl _
  | cons hp hrest => exact hp.grows.trans hrest.grows

end

theorem ArmsFind.grows {s t : TypeTree} {arms : List Arm} (h : ArmsFind W s t S Γ arms S') :
    S.Grows S' := by
  induction arms generalizing S with
  | nil => cases h; exact .refl _
  | cons arm rest ih =>
    cases h with
    | cons hpattern hbody hrest =>
      exact ((hpattern.grows.trans hbody.grows).trans (Found.grows_ask ..)).trans (ih hrest)

end Growth

/-! ## Variables in use -/

@[simp] theorem TypeTree.over_var {x : VarIdent} {V : Set VarIdent} : (var x).Over V ↔ x ∈ V := by
  simp [TypeTree.Over]

@[simp] theorem TypeTree.over_prim (p : Prim) (V : Set VarIdent) : (prim p).Over V := by
  intro x hx
  rcases occurs_mk.mp hx with h | ⟨c, hc, -⟩
  · cases h
  · cases hc

theorem TypeTree.over_mk {s : Shape TypeTree} {V : Set VarIdent} (hs : s.isVar = false) :
    (mk s).Over V ↔ ∀ c ∈ s.children, c.Over V := by
  have hx : ∀ x, s.varIdent? ≠ some x := by
    cases s <;> simp_all [Shape.isVar, Shape.varIdent?]
  constructor
  · intro h c hc x hoccurs
    exact h x (occurs_mk.mpr (.inr ⟨c, hc, hoccurs⟩))
  · intro h x hoccurs
    obtain ⟨c, hc, hoccurs⟩ := (occurs_mk.mp hoccurs).resolve_left (hx x)
    exact h c hc x hoccurs

theorem TypeTree.over_tuple {ts : List TypeTree} {V : Set VarIdent} (h : ∀ t ∈ ts, t.Over V) :
    (TypeTree.tuple ts).Over V := by
  unfold TypeTree.tuple
  split
  · exact over_prim _ _
  · exact (over_mk rfl).mpr h

theorem Env.over_cons {b : Name × TypeTree} {Γ : Env} {V : Set VarIdent} (hb : b.2.Over V)
    (hΓ : Γ.Over V) : Env.Over (b :: Γ) V :=
  List.forall_mem_cons.mpr ⟨hb, hΓ⟩

theorem Env.over_bindParams {Γ : Env} {params : List Param} {ts : List TypeTree}
    {V : Set VarIdent} (hΓ : Γ.Over V) (hts : ∀ t ∈ ts, t.Over V) :
    (Γ.bindParams params ts).Over V := by
  intro b hb
  rcases List.mem_append.mp hb with hb | hb
  · exact hts _ (List.of_mem_zip (List.mem_reverse.mp hb)).2
  · exact hΓ b hb

namespace Found

variable {S S' : Found} {Γ Δ : Env}

/-- What was found and the environment are over the variables in use. -/
structure Holds (S : Found) (Γ : Env) : Prop where
  closed : S.Closed
  envOver : Γ.Over S.vars

theorem Reaches.holds {t : TypeTree} (h : S.Reaches S' t Δ) : S'.Holds Δ := ⟨h.closed, h.envOver⟩

theorem Holds.askAll (h : S.Holds Γ) {pairs : List (TypeTree × TypeTree)}
    (hp : ∀ p ∈ pairs, p.1.Over S.vars ∧ p.2.Over S.vars) : (S.askAll pairs).Holds Γ where
  closed := ⟨fun p hmem => (List.mem_append.mp hmem).elim (h.closed.equations p) (hp p),
    h.closed.records⟩
  envOver := h.envOver

theorem Holds.ask (h : S.Holds Γ) {l r : TypeTree} (hl : l.Over S.vars) (hr : r.Over S.vars) :
    (S.ask l r).Holds Γ :=
  h.askAll (show ∀ p ∈ [(l, r)], p.1.Over S.vars ∧ p.2.Over S.vars by simpa using ⟨hl, hr⟩)

theorem Holds.widen (h : S.Holds Γ) (hw : S.Widens S') : S'.Holds Γ where
  closed :=
    { equations := by
        rw [hw.equations]
        exact fun p hp => (h.closed.equations p hp).imp (·.mono hw.vars) (·.mono hw.vars)
      records := by
        rw [hw.records]
        exact fun r hr => (h.closed.records r hr).mono hw.vars }
  envOver := h.envOver.mono hw.vars

theorem Holds.bind (h : S.Holds Γ) {b : Name × TypeTree} (hb : b.2.Over S.vars) :
    S.Holds (b :: Γ) :=
  ⟨h.closed, Env.over_cons hb h.envOver⟩

theorem Introduces.over {xs : List VarIdent} (h : S.Introduces S' xs) :
    ∀ t ∈ xs.map var, t.Over S'.vars := by
  simp only [List.mem_map, forall_exists_index, and_imp, forall_apply_eq_imp_iff₂, over_var]
  exact h.mem

end Found

section Holds

variable {W : Surroundings} {S S' : Found} {Γ Δ : Env}

theorem ParamsFind.over {D : Declarations} {params : List Param} {ts : List TypeTree}
    (h : ParamsFind D S params ts S') : ∀ t ∈ ts, t.Over S'.vars := by
  induction h with
  | nil => simp
  | written _ ht hrest ih => exact List.forall_mem_cons.mpr ⟨ht.typeOver.mono hrest.widens.vars, ih⟩
  | plain _ hx hrest ih =>
    exact List.forall_mem_cons.mpr
      ⟨over_var.mpr (hrest.widens.vars (hx.mem _ (List.mem_singleton_self _))), ih⟩

theorem AllFind.holds {es : List Expr} {ts : List TypeTree} (h : AllFind W S Γ es ts S' Δ)
    (hS : S.Holds Γ) : S'.Holds Δ ∧ ∀ t ∈ ts, t.Over S'.vars := by
  induction es generalizing S Γ ts with
  | nil => cases h; exact ⟨hS, by simp⟩
  | cons e rest ih =>
    cases h with
    | cons he hrest =>
      obtain ⟨hholds, hts⟩ := ih hrest he.reaches.holds
      exact ⟨hholds, List.forall_mem_cons.mpr ⟨he.reaches.typeOver.mono hrest.grows.vars, hts⟩⟩

mutual

theorem PatternFinds.holds {p : Pattern} {s : TypeTree} {S S' : Found} {Γ Δ : Env}
    (h : PatternFinds W S Γ p s S' Δ) (hS : S.Holds Γ) (hs : s.Over S.vars) : S'.Holds Δ := by
  cases h with
  | wildcard => exact hS
  | binding => exact hS.bind hs
  | literal hexpr =>
    exact hexpr.reaches.holds.ask (hs.mono hexpr.grows.vars) hexpr.reaches.typeOver
  | tuple hxs hitems =>
    refine hitems.holds ((hS.widen hxs.toWidens).ask (hs.mono hxs.vars) ?_) hxs.over
    exact over_tuple hxs.over
  | tag hopens hitems =>
    exact hitems.holds ((hS.widen hopens.toWidens).ask (hs.mono hopens.vars) hopens.resultOver)
      hopens.fieldsOver

theorem PatternsFind.holds {ps : List Pattern} {ts : List TypeTree} {S S' : Found} {Γ Δ : Env}
    (h : PatternsFind W S Γ ps ts S' Δ) (hS : S.Holds Γ) (hts : ∀ t ∈ ts, t.Over S.vars) :
    S'.Holds Δ := by
  cases h with
  | nil => exact hS
  | cons hp hrest =>
    obtain ⟨ht, hts⟩ := List.forall_mem_cons.mp hts
    exact hrest.holds (hp.holds hS ht) fun t hmem => (hts t hmem).mono hp.grows.vars

end

end Holds

end ConstraintTyping
