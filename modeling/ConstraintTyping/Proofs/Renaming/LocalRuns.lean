import ConstraintTyping.Proofs.Renaming.LocalGroups
import ConstraintTyping.Proofs.Renaming.LocalWalks

/-!
# Local names do not matter

A binder of a function gets another name.  Signatures are collected as before, and the walk over the
body finds the same.  What can change is which functions a body seems to refer to: groups are made
from all names in a body, also from those that are local.  As long as the groups stay, the check of
the module does what it did, to the last type.
-/

namespace ConstraintTyping

open Store CheckState CheckM

/-! ## One function -/

namespace LocalNames

/-- Where nothing is in scope there is one empty scope. -/
theorem Bind.eq_start {scopes scopes' : Scopes} {n : Nat}
    (h : Bind { count := n } scopes scopes') : scopes = {} ∧ scopes' = {} := by
  obtain ⟨frames⟩ := scopes
  obtain ⟨frames'⟩ := scopes'
  obtain ⟨bindings, hr, rfl, rfl⟩ := h
  obtain ⟨frame, rfl, hframe⟩ := List.map_eq_singleton_iff.mp hr
  obtain rfl := List.map_eq_nil_iff.mp hframe
  exact ⟨rfl, rfl⟩

end LocalNames

namespace LocalWalk

variable {J : LocalWalk} {f : FunctionDecl} {ty : TypeId} {s : FindState}

theorem inStep_start (hstore : DeclM.EndsWell J.base s.store) (hscopes : s.scopes = {}) :
    J.InStep {} s s :=
  ⟨LocalNames.apt_of_pairs_nil rfl, hstore, rfl, by rw [hscopes]; exact LocalNames.bind_start⟩

/-- The walk over a body does not depend on the name of a binder. -/
theorem functionRule_renameLocal (hnew : f.New J.ρ.name) (hstore : DeclM.EndsWell J.base s.store)
    (hscopes : s.scopes = {})
    (hsig : ∀ sig, s.store.signature? ty = some sig → sig.params.length = f.params.length) :
    FindM.functionRule (f.renameLocal J.ρ) ty J.context s = FindM.functionRule f ty J.context s := by
  obtain ⟨hhead, hbodyNew⟩ := List.forall_mem_append.mp hnew
  have hparams := NewAt.params (List.forall_mem_cons.mp hhead).2
  unfold FindM.functionRule
  rw [FindM.query_bind, FindM.query_bind,
    show (f.renameLocal J.ρ).body = f.body.map fun body =>
      (body.renameLocal J.ρ (LocalM.bindParams J.ρ f.params (LocalNames.enter {})).2).1 from rfl]
  cases hty : s.store.signature? ty with
  | none => rfl
  | some sig =>
    cases hbody : f.body with
    | none => rfl
    | some body =>
      rw [hbody] at hbodyNew
      have hleads : (LocalNames.enter {}).Leads (body.renameLocal J.ρ
          (LocalM.bindParams J.ρ f.params (LocalNames.enter {})).2).2 :=
        (LocalNames.leads_bindParams f.params _).trans (body.leads_renameLocal _)
      have htwin : J.Twin {} _ _ _ :=
        twin_enterScope.bind fun _ => (twin_bindAll _ (hsig sig hty) hparams).bind fun _ =>
          (body.twin_infer _ hbodyNew).bind fun bodyTy =>
            (twin_steady (FindM.steady_equal sig.ret bodyTy body.span .body)).bind fun _ =>
              twin_exitScope hleads
      obtain ⟨-, hend⟩ := htwin s s (inStep_start hstore hscopes)
      obtain ⟨hscopes₁, hscopes₂⟩ := hend.scopes.eq_start
      rw [Option.map_some]
      dsimp only
      rw [Expr.span_renameLocal]
      refine Prod.ext rfl (hend.same.trans ?_)
      rw [hscopes₂, ← hscopes₁]

end LocalWalk

/-! ## A group -/

section Group

/-- A function that may have another name for a binder, if that name is new in it. -/
def MayRename (ρ : LocalRenaming) (f f' : FunctionDecl) : Prop :=
  f' = f ∨ f.New ρ.name ∧ f' = f.renameLocal ρ

/-- Members of which the same is settled once their bodies are walked. -/
structure SameMember (m m' : FunctionDecl × TypeId) : Prop where
  ty : m'.2 = m.2
  name : m'.1.name = m.1.name
  exprs : m'.1.subexprs.map Expr.id = m.1.subexprs.map Expr.id

theorem MayRename.sameMember {ρ : LocalRenaming} {f f' : FunctionDecl} (h : MayRename ρ f f')
    (ty : TypeId) : SameMember (f, ty) (f', ty) := by
  obtain rfl | ⟨-, rfl⟩ := h
  · exact ⟨rfl, rfl, rfl⟩
  · exact ⟨rfl, rfl, f.exprIds_renameLocal⟩

namespace CheckM

variable {config : CheckConfig} {members members' : List (FunctionDecl × TypeId)}

theorem failGroup_congr (h : List.Forall₂ SameMember members members') :
    failGroup members' = failGroup members :=
  forM_eq_of_forall₂ (h.imp fun _ _ hm => congrArg (finishFunction · TypeId.error) hm.name)

theorem applyGroup_congr (h : List.Forall₂ SameMember members members') (finding : Finding)
    (solution : Solution) : applyGroup members' finding solution = applyGroup members finding solution := by
  unfold applyGroup
  rw [List.flatMap_def, List.flatMap_def, map_eq_of_forall₂ (h.imp fun _ _ hm => hm.exprs)]

theorem publishGroup_congr (h : List.Forall₂ SameMember members members') (solved : List TypeId)
    (applied : Applied) : publishGroup members' solved applied = publishGroup members solved applied := by
  unfold publishGroup
  refine congrArg _ (funext fun _ => forM_eq_of_forall₂ ?_)
  refine (rel_zip h (List.forall₂_same.mpr fun _ _ => rfl)).imp ?_
  rintro ⟨m, ty⟩ ⟨m', _⟩ ⟨hm, rfl⟩
  dsimp only
  rw [hm.name]

/-- What is done with a group once its bodies are walked depends on the names, the provisional types
and the expressions of its members. -/
theorem settleGroup_congr (h : List.Forall₂ SameMember members members') (checkpoint : Nat)
    (finding : Finding) : SideBySide.settleGroup config members' checkpoint finding =
      SideBySide.settleGroup config members checkpoint finding := by
  have hsolved : ∀ solution : Solution,
      (members'.mapM fun m => CheckM.build (solution.bindings.apply m.2)) =
        members.mapM fun m => CheckM.build (solution.bindings.apply m.2) := fun solution =>
    mapM_eq_of_forall₂ (h.imp fun _ _ hm =>
      congrArg (fun ty => CheckM.build (solution.bindings.apply ty)) hm.ty)
  unfold SideBySide.settleGroup
  simp only [failGroup_congr h, hsolved, applyGroup_congr h, publishGroup_congr h]

end CheckM

namespace LocalWalk

variable {J : LocalWalk} {W : Surroundings} {s : FindState}
  {members members' : List (FunctionDecl × TypeId)}

/-- The bodies of a group are walked as before. -/
theorem findGroup_eq
    (h : List.Forall₂ (fun m m' => MayRename J.ρ m.1 m'.1 ∧ m'.2 = m.2) members members')
    (hs : s.Ready W J.context) (hscopes : s.scopes = {}) (hstore : DeclM.EndsWell J.base s.store)
    (hmembers : ∀ m ∈ members, FindM.IsMember s.store m)
    (hparams : ∀ m ∈ members, ∀ sig, s.store.signature? m.2 = some sig →
      sig.params.length = m.1.params.length) :
    FindM.findGroup members' J.context s = FindM.findGroup members J.context s := by
  induction h generalizing s with
  | nil => rfl
  | @cons m m' rest rest' hm _ ih =>
    obtain ⟨hrenamed, hty⟩ := hm
    obtain ⟨⟨hlt, ⟨sig, hsig⟩, body, hbody⟩, hrest⟩ := List.forall_mem_cons.mp hmembers
    obtain ⟨hlen, hparams⟩ := List.forall_mem_cons.mp hparams
    have hrule : FindM.functionRule m'.1 m'.2 J.context s =
        FindM.functionRule m.1 m.2 J.context s := by
      rw [hty]
      obtain heq | ⟨hnew, heq⟩ := hrenamed
      · rw [heq]
      · rw [heq, functionRule_renameLocal hnew hstore hscopes hlen]
    obtain ⟨_, hgoes, hscopes₁, -⟩ := FindM.does_functionRule hs hscopes hsig hlt hbody
    have hle := hgoes.store.le
    show FindM.findGroup rest' J.context (FindM.functionRule m'.1 m'.2 J.context s).2 =
      FindM.findGroup rest J.context (FindM.functionRule m.1 m.2 J.context s).2
    rw [hrule]
    refine ih hgoes.ready hscopes₁ ⟨hstore.1.trans hgoes.store, hgoes.ready.implements.coherent⟩
      (fun m hm => (hrest m hm).of_le hle) fun m hm sig hsig => ?_
    rw [FindM.signature?_of_le hle (hrest m hm).1] at hsig
    exact hparams m hm sig hsig

end LocalWalk

namespace CheckM

variable {config : CheckConfig} {ρ : LocalRenaming} {s : CheckState}
  {group group' : List FunctionDecl} {gs gs' : List (List FunctionDecl)}

theorem members_mayRename (h : List.Forall₂ (MayRename ρ) group group') :
    List.Forall₂ (fun m m' => MayRename ρ m.1 m'.1 ∧ m'.2 = m.2) (s.members group)
      (s.members group') := by
  refine List.rel_filterMap ?_ h
  intro f f' hf
  have hname : f'.name = f.name := (hf.sameMember 0).name
  dsimp only
  rw [hname]
  cases s.globals[f.name]? with
  | none => exact .none
  | some g => exact .some ⟨hf, rfl⟩

/-- A group is checked as before. -/
theorem checkGroup_congr (h : List.Forall₂ (MayRename ρ) group group') (hs : s.Registered)
    (hcontext : s.context.Within s.store) (hwaits : s.Waits group)
    (hfields : ρ.fields? = s.store.fieldCount?) :
    checkGroup config group' s = checkGroup config group s := by
  let J : LocalWalk := ⟨ρ, s.store, s.context, hs.coherent, hs.complete, hfields⟩
  have hmembers := @members_mayRename ρ s _ _ h
  have hfinds : findGroup (s.members group') s = findGroup (s.members group) s := by
    have hwalk := @LocalWalk.findGroup_eq J _ ⟨s.store, {}, {}, s.log⟩ _ _ hmembers
      (FindM.ready_start s.log hs.coherent hs.complete hcontext) rfl ⟨.refl _, hs.coherent⟩
      (fun m hm => hwaits.isMember hm) fun m hm sig hsig => by
        obtain ⟨-, -, hsignature⟩ := hwaits.member hm
        obtain ⟨sig', hsig', hparams, -⟩ := hsignature.signature
        obtain rfl := Option.some.inj (hsig'.symm.trans hsig)
        exact hparams.length_eq.symm
    exact congrArg (fun found : Unit × FindState => (found.2.finding,
      { s with store := found.2.store, log := found.2.log })) hwalk
  have hsame : List.Forall₂ SameMember (s.members group) (s.members group') :=
    hmembers.imp fun m m' ⟨hm, hty⟩ => by
      obtain ⟨-, hname, hexprs⟩ := hm.sameMember m.2
      exact ⟨hty, hname, hexprs⟩
  rw [SideBySide.checkGroup_eq, SideBySide.checkGroup_eq, hfinds, settleGroup_congr hsame]

/-- The groups of a module are checked as before. -/
theorem checkGroups_congr (h : List.Forall₂ (List.Forall₂ (MayRename ρ)) gs gs') (hs : s.Ready gs)
    (hfields : ρ.fields? = s.store.fieldCount?) :
    checkGroups config gs' s = checkGroups config gs s := by
  induction h generalizing s with
  | nil => rfl
  | @cons group group' gs gs' hgroup _ ih =>
    have hwaits := hs.waits group List.mem_cons_self
    have hchecks : Checks config group s (checkGroup config group s).2 :=
      ends_checkGroup config hs.registered hs.within hwaits
    have hfields₁ : ρ.fields? = (checkGroup config group s).2.store.fieldCount? :=
      hfields.trans
        (fieldCount?_of_endsWell hs.registered.coherent hs.registered.complete hchecks.store).symm
    rw [checkGroups_cons, checkGroups_cons,
      checkGroup_congr hgroup hs.registered hs.within hwaits hfields,
      ih (hchecks.ready hs) hfields₁]

theorem mapM_bindParams (params : List Param) (r : LocalNames) :
    (LocalM.bindParams ρ params r).1.mapM (fun p => resolveOrFresh p.written p.span) =
      params.mapM fun p => resolveOrFresh p.written p.span := by
  induction params generalizing r with
  | nil => rfl
  | cons p rest ih =>
    rw [List.mapM_cons, ← ih]
    exact List.mapM_cons ..

/-- A signature does not depend on the names of the parameters. -/
theorem collectSignature_mayRename {f f' : FunctionDecl} (h : MayRename ρ f f') :
    collectSignature f' = collectSignature f := by
  obtain rfl | ⟨-, rfl⟩ := h
  · rfl
  have hsignature : signature (f.renameLocal ρ) = signature f := by
    unfold signature
    rw [show (f.renameLocal ρ).params = (LocalM.bindParams ρ f.params (LocalNames.enter {})).1 from rfl,
      mapM_bindParams]
    rfl
  have hbody : (f.renameLocal ρ).body.isNone = f.body.isNone := Option.isNone_map
  unfold collectSignature
  rw [hsignature, hbody]
  rfl

end CheckM

end Group

/-! ## A module -/

theorem rel_getElem? {α β : Type} {R : α → β → Prop} {xs : List α} {ys : List β}
    (h : List.Forall₂ R xs ys) (i : Nat) : Option.Rel R xs[i]? ys[i]? := by
  induction h generalizing i with
  | nil => exact .none
  | cons hxy _ ih =>
    cases i with
    | zero => exact .some hxy
    | succ i => exact ih i

theorem forall₂_modify {α : Type} {R : α → α → Prop} {f : α → α} (hrefl : ∀ a, R a a) (l : List α)
    (i : Nat) (h : ∀ a, l[i]? = some a → R a (f a)) : List.Forall₂ R l (l.modify i f) := by
  induction l generalizing i with
  | nil =>
    rw [List.modify_nil]
    exact .nil
  | cons a l ih =>
    cases i with
    | zero => exact .cons (h a rfl) (List.forall₂_same.mpr fun b _ => hrefl b)
    | succ i => exact .cons (hrefl a) (ih i h)

namespace Module

variable {m : Module} {fields? : Name → Option Nat} {i binder : Nat} {old name : Name}
  {config : CheckConfig} {log : DiagnosticLog}

/-- Signatures are collected as before. -/
theorem prepared_congr {ρ : LocalRenaming} {fs : List FunctionDecl}
    (h : List.Forall₂ (MayRename ρ) m.functions fs) :
    prepared { m with functions := fs } config log = m.prepared config log :=
  congrArg (fun collect : CheckM PUnit => (collect (m.registered config log)).2)
    (forM_eq_of_forall₂ (h.imp fun _ _ hf => collectSignature_mayRename hf))

/-- Functions that form the same groups under other names for their binders are checked as before. -/
theorem check_congr {ρ : LocalRenaming} {fs : List FunctionDecl}
    (h : List.Forall₂ (MayRename ρ) m.functions fs)
    (hfields : ρ.fields? = (m.registered config log).store.fieldCount?)
    (hgroups : bodyGroups { m with functions := fs } = m.bodyGroups) :
    check { m with functions := fs } config log = m.check config log := by
  have hmembers : List.Forall₂ (List.Forall₂ (MayRename ρ)) m.groups
      (groups { m with functions := fs }) := by
    rw [groups, groups, hgroups]
    refine List.forall₂_map_left_iff.mpr (List.forall₂_map_right_iff.mpr
      (List.forall₂_same.mpr fun G _ => ?_))
    refine List.rel_filterMap (R := (· = ·)) ?_ (List.forall₂_refl G)
    rintro j _ rfl
    exact rel_getElem? h j
  -- the fields of the tags are there before any signature is collected
  have hfields' : ρ.fields? = (m.prepared config log).store.fieldCount? := by
    have hregistered := (m.collected_registered config log).registered
    rw [prepared_eq, fieldCount?_of_endsWell hregistered.coherent hregistered.complete
      (m.goesOn_collected config log m.functions).store, hfields]
  have hruns := @checkGroups_congr config _ _ _ _ hmembers (m.ready_prepared config log) hfields'
  rw [check_eq, check_eq, checked, checked, prepared_congr h, hruns]

theorem forall₂_renameLocal (hnew : ∀ f, m.functions[i]? = some f → f.New name) :
    List.Forall₂ (MayRename ⟨binder, old, name, fields?⟩) m.functions
      (m.renameLocal fields? i binder old name).functions :=
  forall₂_modify (fun _ => .inl rfl) m.functions i fun f hf => .inr ⟨hnew f hf, rfl⟩

/-- Local names do not matter if no function with a body has the old name of the binder or the new. -/
theorem check_renameLocal_of_apart (hnew : ∀ f, m.functions[i]? = some f → f.New name)
    (hold : m.bodyIndex? old = none) (hname : m.bodyIndex? name = none) :
    (m.renameLocal (m.registered config log).store.fieldCount? i binder old name).check config log =
      m.check config log :=
  check_congr (forall₂_renameLocal hnew) rfl (bodyGroups_renameLocal hold hname)

/-- Local names do not matter where the groups do not depend on them: when a binder and the references
to it get a name that is new in the function, and the functions form the same groups, then the check
of the module is the same. -/
theorem check_renameLocal (hnew : ∀ f, m.functions[i]? = some f → f.New name)
    (hgroups : (m.renameLocal (m.registered config log).store.fieldCount? i binder old name).bodyGroups =
      m.bodyGroups) :
    (m.renameLocal (m.registered config log).store.fieldCount? i binder old name).check config log =
      m.check config log :=
  check_congr (forall₂_renameLocal hnew) rfl hgroups

/-- A parameter that has the name of no function is called by another such name. -/
theorem check_renameLocal_partners :
    let m := partners "a" "b"
    let m' := m.renameLocal (m.registered {} {}).store.fieldCount? 0 0 "x" "y"
    m'.functions.map (fun f => f.params.map Param.name) = [["y"], ["x"]] ∧
      m.functions.map (fun f => f.params.map Param.name) = [["x"], ["x"]] ∧
      (∀ f, m.functions[0]? = some f → f.New "y") ∧
      m'.bodyGroups = m.bodyGroups ∧ m'.check {} {} = m.check {} {} := by
  have hnew : ∀ f, (partners "a" "b").functions[0]? = some f → f.New "y" := fun f hf => by
    obtain rfl := Option.some.inj hf
    decide
  have hgroups : ∀ fields?, ((partners "a" "b").renameLocal fields? 0 0 "x" "y").bodyGroups =
      (partners "a" "b").bodyGroups := fun _ => bodyGroups_renameLocal rfl rfl
  exact ⟨rfl, rfl, hnew, hgroups _, check_renameLocal hnew (hgroups _)⟩

end Module

/-! ## A parameter with the name of a function -/

section Shadowing

open TypeTree

/-- The function `keep(x : i32) -> 't = x`, for a parameter of any name. -/
def keepFn (x : Name) : FunctionDecl where
  name := "keep"
  params := [⟨x, some (.named "i32" []), Span.none⟩]
  ret := some (.var "t")
  given := []
  isMeta := false
  isVariadic := false
  body := some (.mk 0 Span.none (.ident x))
  span := Span.none

/-- That function, and one that uses it. -/
def keepAndUse (x : Name) : Module where
  functions := [keepFn x, partnerFn "other" "keep" "bool" "t" 1]

theorem bodyGroups_keepAndUse_other : (keepAndUse "other").bodyGroups = [[0, 1]] := by
  have hsorted : ([0, 1] : List Nat).mergeSort = [0, 1] := List.mergeSort_of_pairwise (by decide)
  exact congrArg ([·]) hsorted

theorem bodyGroups_keepAndUse_kept : (keepAndUse "kept").bodyGroups = [[0], [1]] :=
  congrArg₂ (fun G H => [G, H]) (List.mergeSort_singleton 0) (List.mergeSort_singleton 1)

theorem clean_prepared_keepAndUse (x : Name) : ((keepAndUse x).prepared {} {}).Clean :=
  Module.clean_prepared (List.forall_mem_cons.mpr ⟨readable_of_param (p := .i32) rfl rfl rfl rfl,
    List.forall_mem_singleton.mpr (readable_partnerFn (p := .bool) rfl _)⟩)
    (by simp [keepFn, partnerFn])

variable {s : CheckState} {x : Name}

theorem BodyFinds.keep {W : Surroundings} {S S' : Found} {u ret : TypeTree}
    (h : BodyFinds W S (keepFn x) (.mk 0 Span.none (.ident x)) [u] ret S') :
    S'.equations = S.equations ++ [(ret, u)] := by
  obtain ⟨t, S₁, Δ, hfinds, rfl⟩ := h
  have hlookup : (Env.bindParams [] (keepFn x).params [u]).lookup x = some u := by
    simp [Env.bindParams, keepFn]
  obtain ⟨hequations, -, hu⟩ := hfinds.ident fun hnone => by rw [hlookup] at hnone; cases hnone
  rw [← hu u hlookup]
  exact congrArg (· ++ _) hequations

/-- In one group the two bodies ask for one variable to be two types. -/
theorem equations_keepAndUse {total : Found} {T : Store}
    (hs : s.Waits (keepAndUse x).functions) (hclean : s.Clean) (hle : s.store ≤ T)
    (h : GroupFinds (s.context.surroundings s.store) T ⟨s.store.vars, [], [], []⟩
      (s.members (keepAndUse x).functions) total) :
    total.equations =
      [(var (.named "t"), TypeTree.prim .i32), (var (.named "t"), TypeTree.prim .bool)] := by
  obtain ⟨keep, hkeep, hkeepSig, -⟩ := hs.waits _ List.mem_cons_self
  obtain ⟨other, hother, hotherSig, -⟩ := hs.waits _ (List.mem_cons_of_mem _ List.mem_cons_self)
  have hmembers : s.members (keepAndUse x).functions =
      [(keepFn x, keep), (partnerFn "other" "keep" "bool" "t" 1, other)] := by
    rw [members, keepAndUse, List.filterMap_cons, List.filterMap_cons, hkeep, hother]
    rfl
  rw [hmembers] at h
  obtain ⟨sig, u, hsig, hparams, hret, hu⟩ := hkeepSig.of_param rfl rfl rfl hclean hle
  obtain ⟨sig', v, hsig', hparams', hret', hv⟩ := hotherSig.of_param rfl rfl rfl hclean hle
  cases h with
  | cons hsig₁ hbody hfinds hrest =>
    cases hrest with
    | cons hsig₂ hbody' hfinds' hnil =>
      cases hnil
      obtain rfl := Option.some.inj hbody
      obtain rfl := Option.some.inj hbody'
      obtain rfl := Option.some.inj (hsig₁.symm.trans hsig)
      obtain rfl := Option.some.inj (hsig₂.symm.trans hsig')
      rw [hparams, List.map_singleton, hret, hu] at hfinds
      rw [hparams', List.map_singleton, hret', hv] at hfinds'
      rw [hfinds'.partner (not_general hkeep), hfinds.keep]
      rfl

/-- Alone, the function gives rise to no error. -/
theorem accepts_keepFn (hs : s.Waits [keepFn x]) (hclean : s.Clean) :
    Accepts {} [keepFn x] s := by
  obtain ⟨ty, hty, hsignature, -⟩ := hs.waits _ List.mem_cons_self
  obtain ⟨⟨ret, params, givens, isMeta, isVariadic⟩, u, hsig, rfl, hret, hu⟩ :=
    hsignature.of_param rfl rfl rfl hclean le_rfl
  let inside : FindState := ⟨s.store, ⟨[[(x, u)], []]⟩, {}, s.log⟩
  have hinfer := FindM.infer_ident
    (@FindM.identRule_local s.context inside x u (by simp [inside, Scopes.lookup?]) Span.none) 0
  have hsolves : SolvesInOrder 10000 [] [(var (.named "t"), TypeTree.prim .i32)]
      [(.named "t", TypeTree.prim .i32)] :=
    .cons (SolvesInOrder.unify_var_ok (by decide) (not_occurs_prim _ _) (by simp [error])) .nil
  have hwalk : s.walk [keepFn x] =
      ⟨s.store, {}, ⟨#[.equal ret u Span.none .body], ({} : Std.HashMap _ _).insert 0 u, #[], false⟩,
        s.log⟩ := by
    rw [walk_singleton hty hsig rfl]
    calc _ = (FindM.exitScope s.context (FindM.equal ret
          ((Expr.mk 0 Span.none (.ident x)).infer s.context inside).1 Span.none .body s.context
          ((Expr.mk 0 Span.none (.ident x)).infer s.context inside).2).2).2 := rfl
      _ = _ := by rw [hinfer]; rfl
  rw [Accepts, hwalk]
  refine ⟨rfl, [(.named "t", TypeTree.prim .i32)], ?_, by simp [Constraint.obligation?], by simp⟩
  simpa [Constraint.equation?, hret, hu] using hsolves

namespace Module

theorem functionText?_keepAndUse_error :
    ((keepAndUse "other").check {} {}).functionText? "keep" = some "<error>" := by
  have hruns := (keepAndUse "other").runs_checked {} {} fun _ _ => rfl
  rw [groups, bodyGroups_keepAndUse_other] at hruns
  cases hruns with
  | cons hready hchecks hrest =>
    refine functionText?_eq_error (f := keepFn "other") hready hchecks hrest List.mem_cons_self
      fun total last hle hfinds hsolves => ?_
    rw [equations_keepAndUse (hready.waits _ List.mem_cons_self)
      (clean_prepared_keepAndUse "other") hle hfinds] at hsolves
    exact not_solvesInOrder_twice hsolves

theorem functionText?_keepAndUse_ne :
    ((keepAndUse "kept").check {} {}).functionText? "keep" ≠ some "<error>" := by
  have hruns := (keepAndUse "kept").runs_checked {} {} fun _ _ => rfl
  rw [groups, bodyGroups_keepAndUse_kept] at hruns
  cases hruns with
  | cons hready hchecks hrest =>
    exact functionText?_ne_error (f := keepFn "kept") hready hchecks hrest List.mem_cons_self
      (accepts_keepFn (hready.waits _ List.mem_cons_self) (clean_prepared_keepAndUse "kept"))

/-- When a parameter has the name of another function, that function seems to be referred to.  Calling
the parameter by a name that occurs nowhere in the module splits the group, and changes the type of
the function. -/
theorem functionText?_renameLocal_keepAndUse :
    let m := keepAndUse "other"
    let m' := m.renameLocal (m.registered {} {}).store.fieldCount? 0 0 "other" "kept"
    m.types = [] ∧ m.traits = [] ∧ m.impls = [] ∧
      (∀ f ∈ m.functions, f.New "kept" ∧ f.name ≠ "kept" ∧ "kept" ∉ f.typeVars) ∧
      (m'.check {} {}).functionText? "keep" ≠ (m.check {} {}).functionText? "keep" := by
  refine ⟨rfl, rfl, rfl, by decide, ?_⟩
  have hrenamed : ∀ fields?, (keepAndUse "other").renameLocal fields? 0 0 "other" "kept" =
      keepAndUse "kept" := fun _ => rfl
  rw [hrenamed, functionText?_keepAndUse_error]
  exact functionText?_keepAndUse_ne

end Module

end Shadowing

end ConstraintTyping
