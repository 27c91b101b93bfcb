import ConstraintTyping.Proofs.Infer.Completeness
import ConstraintTyping.Proofs.Infer.Records
import ConstraintTyping.Proofs.Infer.Simulation
import ConstraintTyping.Proofs.Solve.SolveComplete

/-!
# Principal types

The constraints of an expression ask for no more than its rules do.  Whatever types obey the rule of
every node with equality, solving the constraints meets no clash, and these types are instances of
the solved ones, all by one replacement of variables.
-/

namespace ConstraintTyping

open Store StoreM TypeTree

/-- The rules with equality: expressions have given types, written type variables stand for given
types, and a name that is not local is a finished function, used at an instance of its type. -/
def FindContext.exactTyping (context : FindContext) (st : Store) (types : ExprId → TypeTree)
    (vars : VarIdent → TypeTree) : Typing where
  declarations := st.declarations
  exprType := types
  vars := vars
  Uses name t := ∃ g φ, context.globals[name]? = some g ∧ g.finished = true ∧
    t = (st.tree g.ty).subst φ
  Agrees := Eq
  callsMeta := false

namespace FindM

variable {context : FindContext} {st : Store} {types : ExprId → TypeTree}
  {vars : VarIdent → TypeTree}

theorem strict_exactTyping (hco : st.Coherent) :
    (context.exactTyping st types vars).Strict (context.surroundings st) st.vars where
  declarations := rfl
  agrees := rfl
  callsMeta := rfl
  uses := by
    rintro name t s ⟨g, φ, hg, hfin, rfl⟩ hs
    change context.scheme? st name = some s at hs
    rw [FindContext.scheme?, hg] at hs
    obtain rfl := Option.some.inj hs
    exact ⟨hfin, φ, rfl⟩
  fields := by
    intro name p hp t ht x hx
    obtain ⟨d, params, body, -, -, rfl⟩ := exists_of_product? hco hp
    obtain ⟨f, -, rfl⟩ := List.mem_map.mp ht
    exact .inr (mem_vars_of_occurs hx)

/-- Let types obey the rule of every node of an expression with equality, and let the walk over it
report nothing.  Then solving what the walk found fails at no constraint, unless its steps run out,
and one replacement of variables turns the solved type of every node into the given one; it leaves
the variables that were in use before the walk at what they stand for. -/
theorem solve_infer_principal (context : FindContext) (st : Store) (log : DiagnosticLog)
    (limit : Nat) (e : Expr) (types : ExprId → TypeTree) (vars : VarIdent → TypeTree) (Δ : Env)
    (hco : st.Coherent) (hcomp : st.Complete) (hcontext : context.Within st)
    (hclean : (runWalk e.infer context st log).2.log.errorCount = log.errorCount)
    (htyped : HasType (context.exactTyping st types vars) [] e (types e.id) Δ) :
    let found := (runWalk e.infer context st log).2
    let solved := StoreM.solve limit found.finding.constraints.toList found.store
    (∀ f ∈ solved.1.failures, f.error = .stepLimit limit) ∧
      ∃ θ : VarIdent → TypeTree, (∀ x ∈ st.vars, θ x = vars x) ∧
        ∀ sub ∈ e.subexprs, ∃ ty, found.finding.exprTypes[sub.id]? = some ty ∧
          let final := solved.1.bindings.apply ty solved.2
          (final.2.tree final.1).subst θ = types sub.id := by
  intro found solved
  obtain ⟨records, hgoes, -, hfinds⟩ := e.walks (context.surroundings st) context _
    (ready_start log hco hcomp hcontext)
  change found.log.errorCount = log.errorCount at hclean
  have hfinds := hfinds hclean found.store le_rfl [] (by simp)
  rw [List.nil_append] at hfinds
  -- the typing solves what was found
  have hrecovers := hfinds.recovers (J := context.exactTyping st types vars)
    (strict_exactTyping hco)
  obtain ⟨θ, hagree, hfits, -⟩ := hrecovers.complete (σ := vars) htyped
    ⟨⟨by simp [FindState.found], by simp [FindState.found]⟩, by simp [Scopes.env, Env.Over]⟩
    ⟨subset_rfl, fun _ _ => rfl, fun _ => rfl, by simp [FindState.found],
      by simp [FindState.found]⟩
  have hsolved : Absorbs θ limit solved.1 solved.2 := by
    refine absorbs_solve limit hgoes.ready.constraints fun c hc l r span reason heq => ?_
    exact hfits.equations _ (List.mem_filterMap.mpr ⟨c, hc, by rw [heq]; rfl⟩)
  refine ⟨hsolved.failures, θ, hagree.vars, fun sub hsub => ?_⟩
  -- the node is on record
  have hexprTypes : found.finding.exprTypes = enterAll {} records := hgoes.exprTypes
  have hmem : sub.id ∈ records.map Prod.fst := by
    obtain ⟨new, hnew, hperm⟩ := hfinds.adds
    change records.map (fun r => (r.1, found.store.tree r.2)) = [] ++ new at hnew
    have hsub : sub.id ∈ new.map Prod.fst :=
      hperm.mem_iff.mpr (List.mem_map_of_mem (f := Expr.id) hsub)
    rw [← List.nil_append new, ← hnew, List.map_map] at hsub
    exact hsub
  have hsome : ((enterAll {} records)[sub.id]?).isSome = true :=
    isSome_getElem?_enterAll (.inl hmem)
  obtain ⟨ty, hty⟩ := Option.isSome_iff_exists.mp hsome
  have hrecord : (sub.id, ty) ∈ records :=
    (mem_of_getElem?_enterAll hty).resolve_right (by simp)
  refine ⟨ty, hexprTypes ▸ hty, ?_⟩
  intro final
  have htakes := solve_takes limit hgoes.ready.constraints
  have hlt := hgoes.records _ hrecord
  obtain ⟨-, -, hfinal⟩ := Bindings.yields_apply htakes.ordered.within
    (lt_size_of_le htakes.steps.le hlt)
  calc (final.2.tree final.1).subst θ
      = (applyAll (solved.1.bindings.read solved.2) (solved.2.tree ty)).subst θ :=
        congrArg (subst θ) hfinal
    _ = (solved.2.tree ty).subst θ := hsolved.bindings _
    _ = (found.store.tree ty).subst θ := congrArg (subst θ) (tree_of_le htakes.steps.le hlt)
    _ = types sub.id := hfits.records _ (List.mem_map_of_mem hrecord)

/-! ## A function of one argument -/

/-- A walk reports nothing, wherever it begins. -/
def Silent {α : Type} (act : FindM α) : Prop :=
  ∀ context s, (act context s).2.log.errorCount = s.log.errorCount

theorem Silent.bind {α β : Type} {act : FindM α} {f : α → FindM β} (h : act.Silent)
    (hf : ∀ a, (f a).Silent) : (act >>= f).Silent := fun context s =>
  (hf (act context s).1 context (act context s).2).trans (h context s)

theorem silent_mk {id : ExprId} {span : Span} {form : ExprForm} (h : (form.infer id span).Silent) :
    (Expr.mk id span form).infer.Silent :=
  h.bind fun _ _ _ => rfl

/-- The expression `fn(x) { if true { &1 } else { &2 } }`. -/
def chooseAddress : Expr :=
  .mk 0 Span.none (.lambda [⟨"x", none, Span.none⟩]
    (.mk 1 Span.none (.ifElse (.mk 2 Span.none (.bool true))
      (.mk 3 Span.none (.unary .addressOf (.mk 4 Span.none (.int 1 none))))
      (.mk 5 Span.none (.unary .addressOf (.mk 6 Span.none (.int 2 none)))))))

/-- The expression with a truth value for `x`. -/
def chooseAddressAt : ExprId → TypeTree
  | 0 => .mk (.function { ret := .mk (.pointer (prim .i32)), params := [prim .bool] })
  | 1 | 3 | 5 => .mk (.pointer (prim .i32))
  | 2 => prim .bool
  | _ => prim .i32

theorem silent_addressOf {id id' : ExprId} {value : Nat} :
    (Expr.mk id Span.none (.unary .addressOf (.mk id' Span.none (.int value none)))).infer.Silent :=
  silent_mk (Silent.bind (silent_mk fun _ _ => rfl) fun _ _ _ => rfl)

theorem silent_chooseAddress : chooseAddress.infer.Silent := by
  refine silent_mk (Silent.bind (fun _ _ => rfl) fun _ => Silent.bind (fun _ _ => rfl) fun _ => ?_)
  refine Silent.bind ?_ fun _ => Silent.bind (fun _ _ => rfl) fun _ _ _ => rfl
  refine silent_mk (Silent.bind (silent_mk fun _ _ => rfl) fun _ => ?_)
  refine Silent.bind (fun _ _ => rfl) fun _ => Silent.bind silent_addressOf fun _ => ?_
  exact Silent.bind silent_addressOf fun _ => Silent.bind (fun _ _ => rfl) fun _ _ _ => rfl

theorem hasType_chooseAddress (context : FindContext) (st : Store) (vars : VarIdent → TypeTree) :
    HasType (context.exactTyping st chooseAddressAt vars) [] chooseAddress
      (chooseAddressAt chooseAddress.id) [] := by
  refine .mk (.lambda (Δ := [("x", prim .bool)]) (.cons (b := prim .bool) ?_ .nil) ?_)
  · simp [Typing.ParamAt]
  · refine .mk (.ifElse (.mk (.literal .bool)) (.mk (.addressOf (.mk (.literal .int))))
      (.mk (.addressOf (.mk (.literal .int)))) rfl rfl)

/-- The two branches of the expression have the same type from the start. -/
theorem failures_chooseAddress :
    let found := (runWalk chooseAddress.infer ⟨{}, {}⟩ Store.new {}).2
    (StoreM.solve 10 found.finding.constraints.toList found.store).1.failures = [] := by
  intro found
  let x := StoreM.freshVar Store.new
  let a := StoreM.pointer TypeId.i32 x.2
  let b := StoreM.pointer TypeId.i32 a.2
  let f := StoreM.function { ret := a.1, params := [x.1] } b.2
  have hconstraints : found.finding.constraints.toList =
      [.equal TypeId.bool TypeId.bool Span.none .condition, .equal a.1 b.1 Span.none .branch] := rfl
  have hstore : found.store = f.2 := rfl
  rw [hconstraints, hstore]
  obtain ⟨ha, halt, hat⟩ := @yields_pointer x.2 _ (lt_size_of_prim .i32)
  obtain ⟨hb, hblt, hbt⟩ := @yields_pointer a.2 _ (lt_size_of_prim .i32)
  have hf : b.2 ≤ f.2 := StoreM.intern_le _ _
  have hends : ∀ c ∈ [Constraint.equal TypeId.bool TypeId.bool Span.none .condition,
      .equal a.1 b.1 Span.none .branch], c.Within f.2 := by
    refine List.forall_mem_cons.mpr ⟨?_, List.forall_mem_singleton.mpr ?_⟩
    · rintro _ _ _ _ ⟨⟩
      exact ⟨lt_size_of_prim .bool, lt_size_of_prim .bool⟩
    · rintro _ _ _ _ ⟨⟩
      exact ⟨lt_size_of_le (hb.le.trans hf) halt, lt_size_of_le hf hblt⟩
  refine failures_solve hends (.of_agree (by decide) ?_)
  have hsame : f.2.tree a.1 = f.2.tree b.1 := by
    rw [tree_of_le (hb.le.trans hf) halt, tree_of_le hf hblt, hat, hbt, tree_prim, tree_prim]
  simp [Constraint.equation?, hsame]

theorem solve_infer_principal_chooseAddress :
    let context : FindContext := ⟨{}, {}⟩
    let found := (runWalk chooseAddress.infer context Store.new {}).2
    let solved := StoreM.solve 10 found.finding.constraints.toList found.store
    found.log.errorCount = 0 ∧
      HasType (context.exactTyping Store.new chooseAddressAt var) [] chooseAddress
        (chooseAddressAt 0) [] ∧
      solved.1.failures = [] ∧
      ∃ θ : VarIdent → TypeTree, (∀ x ∈ Store.new.vars, θ x = var x) ∧
        ∀ sub ∈ chooseAddress.subexprs, ∃ ty, found.finding.exprTypes[sub.id]? = some ty ∧
          let final := solved.1.bindings.apply ty solved.2
          (final.2.tree final.1).subst θ = chooseAddressAt sub.id :=
  ⟨silent_chooseAddress _ _, hasType_chooseAddress _ _ _, failures_chooseAddress,
    (solve_infer_principal ⟨{}, {}⟩ Store.new {} 10 chooseAddress chooseAddressAt var []
      coherent_new complete_new ⟨by simp, by simp [TraitTable.method?]⟩ (silent_chooseAddress _ _)
      (hasType_chooseAddress _ _ _)).2⟩

end FindM

end ConstraintTyping
