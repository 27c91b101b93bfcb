import ConstraintTyping.Proofs.Check.Turns
import ConstraintTyping.Proofs.Infer.Names

/-!
# Checked modules are well typed

The types that a check without errors has on record obey the rule of every node of every body.  The
rules are those of `HasType`: they speak of the final types alone, and where two types have to agree,
they are compatible.  A name that is not local is used at an instance of the final type of its
function, a recursive one included.
-/

namespace ConstraintTyping

open Store StoreM TypeTree CheckState

/-- A function type without what it asks of its callers. -/
def TypeTree.withoutGivens (t : TypeTree) : TypeTree :=
  match t.shape with
  | .function sig => .mk (.function { sig with givens := [] })
  | _ => t

@[simp] theorem TypeTree.withoutGivens_function (sig : Signature TypeTree) :
    (TypeTree.mk (.function sig)).withoutGivens = .mk (.function { sig with givens := [] }) := by
  rw [withoutGivens, shape_mk]

/-- A member of a group is used at an instance of its general form. -/
theorem TypeTree.IsGeneralForm.exists_subst {g member : TypeTree} {members retained : List TypeTree}
    (h : g.IsGeneralForm member members retained) :
    ∃ φ, member.withoutGivens = (g.subst φ).withoutGivens := by
  obtain ⟨sig, givens, ρ, rfl, -, hinj, rfl⟩ := h
  obtain ⟨φ, hφ⟩ := exists_subst_rename hinj
  exact ⟨φ, by rw [hφ, withoutGivens_function, withoutGivens_function]⟩

/-- The types on record, as a typing, given what the type variables of the program stand for. -/
def TypedModule.typing (t : TypedModule) (vars : VarIdent → TypeTree) : Typing where
  declarations := t.store.declarations
  exprType id := (t.exprTypes[id]?.map t.store.tree).getD error
  vars := vars
  Uses name u := ∃ ty φ, (t.functions[name]?).or (t.traits.method? name) = some ty ∧
    u.withoutGivens = ((t.store.tree ty).subst φ).withoutGivens
  Agrees := Compatible
  callsMeta := true

namespace TypedModule

variable {t : TypedModule} {vars : VarIdent → TypeTree}

theorem exprType_typing {id : ExprId} {ty : TypeId} (h : t.exprTypes[id]? = some ty) :
    (t.typing vars).exprType id = t.store.tree ty := by
  show (t.exprTypes[id]?.map t.store.tree).getD error = _
  rw [h]
  rfl

theorem uses_typing {name : Name} {ty : TypeId} {u : TypeTree} (φ : VarIdent → TypeTree)
    (h : (t.functions[name]?).or (t.traits.method? name) = some ty)
    (hu : u.withoutGivens = ((t.store.tree ty).subst φ).withoutGivens) :
    (t.typing vars).Uses name u :=
  ⟨ty, φ, h, hu⟩

end TypedModule

namespace Module.Turn

variable {m : Module} {config : CheckConfig} {log : DiagnosticLog}
  {pre post : List (List FunctionDecl)} {group : List FunctionDecl} {s s' : CheckState}
  {total : Found} {last : Bound} {retained : List TypeTree} {vars : VarIdent → TypeTree}
  {name : Name} {g : TypeTree}

/-- A finished function, and a method, is used at any instance of its type. -/
theorem uses_general (h : m.Turn config log pre group post s s' total last retained)
    (hname : (s.context.surroundings s.store).names name = some ⟨g, true⟩) (φ : VarIdent → TypeTree) :
    ((m.check config log).typing vars).Uses name (g.subst φ) := by
  obtain ⟨ty, hty, htree⟩ := h.lookup_general hname
  exact TypedModule.uses_typing φ hty (by rw [htree])

/-- A member of the group is used at the instance of its final type that is its solved type. -/
theorem uses_member (h : m.Turn config log pre group post s s' total last retained)
    (vars : VarIdent → TypeTree) {member : FunctionDecl × TypeId} (hmember : member ∈ s.members group) :
    ((m.check config log).typing vars).Uses member.1.name
      (applyAll last (s'.store.tree member.2)) := by
  obtain ⟨ty, hty, hlt, hform⟩ := h.publishes.general member hmember
  obtain ⟨φ, hφ⟩ := hform.exists_subst
  refine TypedModule.uses_typing φ ?_ (by rw [tree_of_le h.endsWell.1.le hlt]; exact hφ)
  rw [h.function (h.waits.member hmember).1, hty, Option.some_or]

/-- An unfinished function that a body mentions is a member of its group. -/
theorem uses_fixed (h : m.Turn config log pre group post s s' total last retained)
    {f : FunctionDecl} (hf : f ∈ group) (hmentions : name ∈ f.references)
    (hname : (s.context.surroundings s.store).names name = some ⟨g, false⟩) :
    ((m.check config log).typing vars).Uses name (applyAll last g) := by
  obtain ⟨ty, hglobal, rfl⟩ := global_of_fixed hname
  obtain ⟨member, hmember, rfl, rfl⟩ := h.mem_of_mentions hf hmentions hglobal
  have huses := h.uses_member vars hmember
  rwa [tree_of_le h.checks.store.1.le (h.ready.global hglobal)] at huses

end Module.Turn

/-! ## Bodies -/

/-- A typing whose types are those of a published group. -/
structure Typing.Follows (J : Typing) (s : CheckState) (group : List FunctionDecl) (total : Found)
    (last : Bound) : Prop where
  declarations : J.declarations = s.store.declarations
  vars : J.vars = fun x => applyAll last (var x)
  agrees : J.Agrees = TypeTree.Compatible
  callsMeta : J.callsMeta = true
  records : ∀ r ∈ total.records, J.exprType r.1 = applyAll last r.2
  general : ∀ {name : Name} {g : TypeTree} (φ : VarIdent → TypeTree),
    (s.context.surroundings s.store).names name = some ⟨g, true⟩ → J.Uses name (g.subst φ)
  fixed : ∀ f ∈ group, ∀ {name : Name} {g : TypeTree}, name ∈ f.references →
    (s.context.surroundings s.store).names name = some ⟨g, false⟩ → J.Uses name (applyAll last g)

namespace Module.Turn

variable {m : Module} {config : CheckConfig} {log : DiagnosticLog}
  {pre post : List (List FunctionDecl)} {group : List FunctionDecl} {s s' : CheckState}
  {total : Found} {last : Bound} {retained : List TypeTree}

theorem follows (h : m.Turn config log pre group post s s' total last retained)
    (hunique : m.UniqueExprs) :
    ((m.check config log).typing fun x => applyAll last (var x)).Follows s group total last where
  declarations := h.declarations
  vars := rfl
  agrees := rfl
  callsMeta := rfl
  records r hr := by
    obtain ⟨ty, hty, -, htree⟩ := h.recorded hunique hr
    rw [TypedModule.exprType_typing hty, htree]
  general φ hname := h.uses_general hname φ
  fixed _ hf _ _ hmentions hname := h.uses_fixed hf hmentions hname

/-- The body of a member, with the names that it mentions used at instances of final types. -/
theorem bodyHasType (h : m.Turn config log pre group post s s' total last retained) {J : Typing}
    (hJ : J.Follows s group total last) {f : FunctionDecl} {ty : TypeId}
    (hmember : (f, ty) ∈ s.members group) :
    ∃ (body : Expr) (sig : Signature TypeId), f.body = some body ∧
      s.store.tree ty = .mk (.function (sig.map s.store.tree)) ∧
      BodyHasType J f body (sig.params.map fun p => applyAll last (s.store.tree p))
        (applyAll last (s.store.tree sig.ret)) := by
  obtain ⟨hf, -, hsignature⟩ := h.waits.member hmember
  obtain ⟨sig, hsig, hparams, hret, -⟩ := hsignature.signature
  obtain ⟨sig', body, S₁, S₂, hsig', hbody, -, hfinds, hgrows⟩ := h.publishes.finds.member hmember
  rw [FindM.signature?_of_le h.checks.store.1.le hsignature.sound.1, hsig] at hsig'
  obtain rfl := Option.some.inj hsig'
  have hshape := shape_of_signature? hsig
  refine ⟨body, sig, hbody, by rw [tree_of_not_qualified (by rw [hshape]; rfl), hshape]; rfl, ?_⟩
  have hdenotes : ∀ {written : Option TypeExpr} {c : TypeId}, s.WrittenAs written c →
      ∀ w, written = some w → J.Denotes w (applyAll last (s.store.tree c)) := by
    intro written c hc w hw
    rw [Typing.Denotes, hJ.declarations, hJ.vars, applyAll_eq_subst]
    exact (hc.denotes h.clean_before w hw).read _
  have htrees : ∀ c ∈ sig.children,
      (s'.store.tree c).subst J.vars = applyAll last (s.store.tree c) := by
    intro c hc
    have hlt : c < s.store.size := by
      refine lt_size_of_mem_children hsignature.sound.1 ?_
      show c ∈ (s.store.shape ty).children
      rw [hshape]
      exact hc
    rw [tree_of_le h.checks.store.1.le hlt, hJ.vars, applyAll_eq_subst]
  refine ⟨List.forall₂_map_right_iff.mpr (hparams.imp fun _ _ hp => hdenotes hp), hdenotes hret, ?_⟩
  -- unfinished functions outside the group are not mentioned, so nothing is asked of their uses
  let guarded : Typing := { J with Uses := fun name u => name ∈ f.references → J.Uses name u }
  have hsolves : guarded.Solves (s.context.surroundings s.store) total :=
    .of_inOrder h.publishes.solves hJ.vars hJ.declarations hJ.agrees hJ.callsMeta hJ.records
      (fun φ hname _ => hJ.general φ hname) fun hname hmentions => hJ.fixed f hf hmentions hname
  obtain ⟨t, Δ, htyped, hagrees⟩ := hfinds.sound hsolves hgrows
  have hparamTrees : (sig.params.map s'.store.tree).map (subst guarded.vars) =
      sig.params.map fun p => applyAll last (s.store.tree p) := by
    rw [List.map_map]
    exact List.map_congr_left fun p hp => htrees p (by simp [Signature.children, hp])
  rw [hparamTrees] at htyped
  change J.Agrees ((s'.store.tree sig.ret).subst J.vars) t at hagrees
  rw [htrees sig.ret (by simp [Signature.children])] at hagrees
  refine ⟨t, Δ, htyped.restrict (U := J.Uses) fun id span name hnode u huse => huse ?_, hagrees⟩
  rw [FunctionDecl.mem_references]
  exact ⟨body, hbody, _, Expr.mem_subexprs.mp (List.mem_filterMap.mpr ⟨_, hnode, rfl⟩), rfl⟩

end Module.Turn

/-- In a module that is checked without an error and in which no number belongs to two expressions,
every body is well typed with the types on record.  Every expression of the body has one; the
parameters and the result have the types of an instance of the final type of the function, as far as
types are written they are these, and the type of the body is compatible with the result. -/
theorem Module.check_wellTyped (m : Module) (config : CheckConfig) (log : DiagnosticLog)
    (h : (m.check config log).errorCount = 0) (hunique : m.UniqueExprs) :
    let final := m.check config log
    ∀ i f, m.Defines i f → ∃ body vars sig, f.body = some body ∧
      (final.typing vars).Uses f.name (.mk (.function sig)) ∧
      (∀ e ∈ f.subexprs, e.id ∈ final.exprTypes) ∧
      BodyHasType (final.typing vars) f body sig.params sig.ret := by
  intro final i f hf
  obtain ⟨group, hgroup, hmem⟩ := List.mem_flatten.mp (mem_flatten_groups.mpr ⟨i, hf⟩)
  obtain ⟨pre, post, hsplit⟩ := List.append_of_mem hgroup
  obtain ⟨s, s', total, last, retained, hturn⟩ := exists_turn h hsplit
  rw [← hturn.waits.map_members] at hmem
  obtain ⟨⟨f, ty⟩, hmember, rfl⟩ := List.mem_map.mp hmem
  obtain ⟨body, sig, hbody, htree, htyped⟩ := hturn.bodyHasType (hturn.follows hunique) hmember
  have hlt := (hturn.waits.member hmember).2.2.sound.1
  refine ⟨body, _, sig.map fun c => applyAll last (s.store.tree c), hbody, ?_, fun e he => ?_,
    htyped⟩
  · have huses := hturn.uses_member (fun x => applyAll last (var x)) hmember
    have hsolved : applyAll last (s'.store.tree ty) =
        .mk (.function (sig.map fun c => applyAll last (s.store.tree c))) := by
      rw [tree_of_le hturn.checks.store.1.le hlt, htree, applyAll_mk last rfl]
      simp [Function.comp_def, Shape.map, Signature.map]
    rw [← hsolved]
    exact huses
  · have hid : e.id ∈ bodyExprs group :=
      List.mem_flatMap.mpr ⟨f, (hturn.waits.member hmember).1, List.mem_map_of_mem he⟩
    obtain ⟨t, ty', -, hty', -⟩ := hturn.publishes.recorded e.id hid
    rw [Std.HashMap.mem_iff_isSome_getElem?, hturn.exprType hunique hid, hty']
    rfl

theorem Module.check_wellTyped_chooseModule :
    let final := chooseModule.check {} {}
    final.errorCount = 0 ∧ chooseModule.UniqueExprs ∧
      ∃ body vars sig, chooseFn.body = some body ∧
        (final.typing vars).Uses "choose" (.mk (.function sig)) ∧
        (∀ e ∈ chooseFn.subexprs, e.id ∈ final.exprTypes) ∧
        BodyHasType (final.typing vars) chooseFn body sig.params sig.ret := by
  have hdefines : chooseModule.Defines 0 chooseFn :=
    ⟨rfl, rfl, fun _ hj => absurd hj (Nat.not_lt_zero _)⟩
  have hunique : chooseModule.UniqueExprs := by decide
  exact ⟨errorCount_check_chooseModule, hunique,
    chooseModule.check_wellTyped {} {} errorCount_check_chooseModule hunique 0 chooseFn hdefines⟩

end ConstraintTyping
