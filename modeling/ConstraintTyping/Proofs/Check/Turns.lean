import ConstraintTyping.Proofs.Check.Accepted

/-!
# The turn of a group

In a check without errors every group has its turn: the groups before it are finished, it is published,
and the groups after it leave what it has published as it is.
-/

namespace ConstraintTyping

open Store StoreM TypeTree CheckState

/-! ## Numbers of expressions -/

namespace Module

variable {m : Module}

/-- Every number belongs to one expression of one body. -/
def UniqueExprs (m : Module) : Prop := (m.functions.flatMap fun f => f.subexprs.map Expr.id).Nodup

instance (m : Module) : Decidable m.UniqueExprs := List.nodupDecidable _

/-- The groups share no number either. -/
theorem UniqueExprs.nodup_groups (h : m.UniqueExprs) : (bodyExprs m.groups.flatten).Nodup := by
  obtain ⟨hnodup, hpairs⟩ := List.nodup_flatMap.mp h
  have hdisjoint : ∀ {i j : Nat} {f g : FunctionDecl}, m.functions[i]? = some f →
      m.functions[j]? = some g → i < j →
      List.Disjoint (f.subexprs.map Expr.id) (g.subexprs.map Expr.id) := by
    intro i j f g hf hg hij
    obtain ⟨hi, rfl⟩ := List.getElem?_eq_some_iff.mp hf
    obtain ⟨hj, rfl⟩ := List.getElem?_eq_some_iff.mp hg
    exact List.pairwise_iff_getElem.mp hpairs i j hi hj hij
  refine List.nodup_flatMap.mpr ⟨fun f hf => ?_, ?_⟩
  · obtain ⟨i, hi⟩ := mem_flatten_groups.mp hf
    exact hnodup f (List.mem_of_getElem? hi.at_index)
  · rw [flatten_groups, List.pairwise_filterMap]
    refine m.nodup_flatten_bodyGroups.imp ?_
    intro i j hne f hf g hg
    rcases Nat.lt_or_gt_of_ne hne with hlt | hgt
    · exact hdisjoint hf hg hlt
    · exact (hdisjoint hg hf hgt).symm

end Module

namespace CheckState

variable {s s' : CheckState} {config : CheckConfig} {gs : List (List FunctionDecl)}

/-- The types of expressions that are in no group on the way are left as they are. -/
theorem Runs.exprTypes (h : Runs config s gs s') {id : ExprId} (hid : id ∉ bodyExprs gs.flatten) :
    s'.exprTypes[id]? = s.exprTypes[id]? := by
  induction h with
  | nil => rfl
  | cons _ hchecks _ ih =>
    rw [List.flatten_cons, bodyExprs, List.flatMap_append, List.mem_append, not_or] at hid
    rw [ih hid.2]
    cases hchecks.ended with
    | failed _ hexprTypes _ => rw [hexprTypes]
    | published hpub => exact hpub.others id hid.1

/-- A name that stands for an unfinished function. -/
theorem global_of_fixed {name : Name} {g : TypeTree}
    (hname : (s.context.surroundings s.store).names name = some ⟨g, false⟩) :
    ∃ ty, s.globals[name]? = some ⟨ty, false⟩ ∧ s.store.tree ty = g := by
  change s.context.scheme? s.store name = some ⟨g, false⟩ at hname
  unfold FindContext.scheme? at hname
  split at hname
  · next fn hglobal =>
    obtain ⟨rfl, hfinished⟩ := Scheme.mk.inj (Option.some.inj hname)
    obtain ⟨ty, finished⟩ := fn
    obtain rfl : finished = false := hfinished
    exact ⟨ty, hglobal, rfl⟩
  · obtain ⟨ty, -, hscheme⟩ := Option.map_eq_some_iff.mp hname
    cases hscheme

end CheckState

namespace Module

variable {m : Module} {config : CheckConfig} {log : DiagnosticLog}
  {pre post : List (List FunctionDecl)} {group : List FunctionDecl} {s s' : CheckState}
  {total : Found} {last : Bound} {retained : List TypeTree}

/-- The turn of a group in a check without errors. -/
structure Turn (m : Module) (config : CheckConfig) (log : DiagnosticLog)
    (pre : List (List FunctionDecl)) (group : List FunctionDecl)
    (post : List (List FunctionDecl)) (s s' : CheckState) (total : Found) (last : Bound)
    (retained : List TypeTree) : Prop where
  groups : m.groups = pre ++ group :: post
  before : Runs config (m.prepared config log) pre s
  ready : s.Ready (group :: post)
  checks : Checks config group s s'
  publishes : Publishes config group s s' total last retained
  after : Runs config s' post (m.checked config log)
  clean : s'.Clean

/-- In a check without errors every group has its turn. -/
theorem exists_turn (h : (m.check config log).errorCount = 0)
    (hsplit : m.groups = pre ++ group :: post) : ∃ s s' total last retained,
      m.Turn config log pre group post s s' total last retained := by
  obtain ⟨hruns, hclean⟩ := m.runs_of_clean config log h
  rw [hsplit] at hruns
  obtain ⟨s, s', hpre, hready, hchecks, hpost⟩ := hruns.split
  have hclean' : s'.Clean := Nat.le_zero.mp (hpost.errors.trans_eq hclean)
  cases hchecks.ended with
  | failed herrors _ _ =>
    rw [hclean'] at herrors
    exact absurd herrors (Nat.not_lt_zero _)
  | @published total last retained hpub =>
    exact ⟨s, s', total, last, retained, hsplit, hpre, hready, hchecks, hpub, hpost, hclean'⟩

namespace Turn

variable (h : m.Turn config log pre group post s s' total last retained)

include h

theorem waits : s.Waits group := h.ready.waits group List.mem_cons_self

theorem clean_before : s.Clean := Nat.le_zero.mp (h.checks.errors.trans_eq h.clean)

/-- What is published stands in the final store. -/
theorem endsWell : DeclM.EndsWell s'.store (m.check config log).store := by
  have hends := m.store_check config log h.after.ready
  exact ⟨h.after.store.1.trans hends.1, hends.2⟩

theorem le : s.store ≤ (m.check config log).store :=
  h.checks.store.1.le.trans h.endsWell.1.le

theorem declarations : (m.check config log).store.declarations = s.store.declarations :=
  declarations_of_advances h.ready.registered.coherent h.ready.registered.complete h.endsWell.2
    (h.checks.store.1.trans h.endsWell.1)

theorem traits : (m.check config log).traits = s.traits := by
  rw [(m.shows_check config log).traits, h.after.traits, h.checks.functions.traits]

theorem function {f : FunctionDecl} (hf : f ∈ group) :
    (m.check config log).functions[f.name]? = s'.functions[f.name]? := by
  rw [(m.shows_check config log).functions, (Runs.functions_of_mem h.ready h.after hf).2]

theorem exprType (hunique : m.UniqueExprs) {id : ExprId} (hid : id ∈ bodyExprs group) :
    (m.check config log).exprTypes[id]? = s'.exprTypes[id]? := by
  rw [(m.shows_check config log).exprTypes]
  refine h.after.exprTypes fun hmem => ?_
  have hnodup := hunique.nodup_groups
  rw [h.groups, List.flatten_append, List.flatten_cons, bodyExprs, List.flatMap_append,
    List.flatMap_append] at hnodup
  exact List.disjoint_of_nodup_append hnodup.of_append_right hid hmem

/-- Within a group no number occurs twice. -/
theorem nodup_bodyExprs (hunique : m.UniqueExprs) : (bodyExprs group).Nodup := by
  have hnodup := hunique.nodup_groups
  rw [h.groups, List.flatten_append, List.flatten_cons, bodyExprs, List.flatMap_append,
    List.flatMap_append] at hnodup
  exact hnodup.of_append_right.of_append_left

/-- What was found for an expression is, once solved, its type on record. -/
theorem recorded (hunique : m.UniqueExprs) {r : ExprId × TypeTree} (hr : r ∈ total.records) :
    ∃ ty, (m.check config log).exprTypes[r.1]? = some ty ∧ ty < (m.check config log).store.size ∧
      (m.check config log).store.tree ty = applyAll last r.2 := by
  obtain ⟨new, hnew, hperm⟩ := h.publishes.finds.adds
  rw [List.nil_append] at hnew
  rw [h.waits.bodyExprs_members] at hperm
  have hnodup : (total.records.map Prod.fst).Nodup := by
    rw [hnew]
    exact hperm.nodup_iff.mpr (h.nodup_bodyExprs hunique)
  have hid : r.1 ∈ bodyExprs group := by
    rw [← hperm.mem_iff, ← hnew]
    exact List.mem_map_of_mem hr
  obtain ⟨t, ty, ht, hty, hlt, htree⟩ := h.publishes.recorded r.1 hid
  have heq : t = r.2 := congrArg Prod.snd (List.inj_on_of_nodup_map hnodup ht hr rfl)
  have hle := h.endsWell.1.le
  exact ⟨ty, (h.exprType hunique hid).trans hty, lt_size_of_le hle hlt,
    by rw [tree_of_le hle hlt, htree, heq]⟩

/-- A function that the group finds finished, or does not find, is not in a group that waits. -/
theorem other {name : Name} (hname : ∀ ty, s.globals[name]? ≠ some ⟨ty, false⟩) :
    (m.check config log).functions[name]? = s.functions[name]? := by
  have hwaits : name ∉ (group :: post).flatten.map FunctionDecl.name := by
    intro hmem
    obtain ⟨f, hf, rfl⟩ := List.mem_map.mp hmem
    obtain ⟨group', hgroup', hf⟩ := List.mem_flatten.mp hf
    obtain ⟨ty, hty, -⟩ := (h.ready.waits group' hgroup').waits f hf
    exact hname ty hty
  rw [List.flatten_cons, List.map_append, List.mem_append, not_or] at hwaits
  rw [(m.shows_check config log).functions, (h.after.others hwaits.2).2,
    (h.checks.functions.others name hwaits.1).2]

/-- An unfinished function is in none of the groups before. -/
theorem exists_defines {name : Name} {ty : TypeId}
    (hglobal : s.globals[name]? = some ⟨ty, false⟩) :
    ∃ j g, m.Defines j g ∧ g.name = name ∧ g ∉ pre.flatten := by
  have hpre : name ∉ pre.flatten.map FunctionDecl.name := fun hmem => by
    obtain ⟨ty', hty', -⟩ := h.before.finished hmem
    rw [hty'] at hglobal
    cases hglobal
  -- so it is provisional since before the first group
  rw [(h.before.others hpre).1] at hglobal
  obtain ⟨g, hg, hfinished, -⟩ := (m.collected_prepared config log).global hglobal
  have hgname : g.name = name := by simpa using List.find?_some hg
  obtain ⟨-, j, hj, hgj, hfirst⟩ := List.find?_eq_some_iff_getElem.mp hg
  refine ⟨j, g, ⟨by rw [List.getElem?_eq_getElem hj, hgj], ?_, fun k hk g' hg' => ?_⟩, hgname,
    fun hmem => hpre (List.mem_map.mpr ⟨g, hmem, hgname⟩)⟩
  · cases hbody : g.body with
    | none => rw [hbody] at hfinished; cases hfinished
    | some body => rfl
  · obtain ⟨hk', rfl⟩ := List.getElem?_eq_some_iff.mp hg'
    rw [hgname]
    simpa using hfirst k hk

/-- An unfinished function that a body of the group mentions is itself in the group. -/
theorem mem_of_mentions {f : FunctionDecl} (hf : f ∈ group) {name : Name} {ty : TypeId}
    (hname : name ∈ f.references) (hglobal : s.globals[name]? = some ⟨ty, false⟩) :
    ∃ member ∈ s.members group, member.1.name = name ∧ member.2 = ty := by
  obtain ⟨j, g, hdefines, hgname, hpre⟩ := h.exists_defines hglobal
  -- references lead into the same group or an earlier one
  have hgroups := h.groups
  rw [Module.groups] at hgroups
  obtain ⟨before, rest, hbodyGroups, hbefore, hrest⟩ := List.map_eq_append_iff.mp hgroups
  obtain ⟨G, after, rfl, rfl, -⟩ := List.map_eq_cons_iff.mp hrest
  obtain ⟨i, hi, hfi⟩ := List.mem_filterMap.mp hf
  obtain ⟨f', hf'⟩ : ∃ f, m.Defines i f := mem_flatten_bodyGroups.mp (by
    rw [hbodyGroups]
    simp [hi])
  obtain rfl := Option.some.inj (hf'.at_index.symm.trans hfi)
  obtain ⟨body, hbody, hmention⟩ := FunctionDecl.mem_references.mp hname
  have hrefers : m.RefersTo i j := ⟨f', g, body, hf', hdefines, hbody, by rw [hgname]; exact hmention⟩
  rcases mem_of_refersTo hbodyGroups hi hrefers with hsame | hearlier
  · refine ⟨(g, ty), List.mem_filterMap.mpr ⟨g, ?_, ?_⟩, hgname, rfl⟩
    · exact List.mem_filterMap.mpr ⟨j, hsame, hdefines.at_index⟩
    · rw [hgname, hglobal]
      rfl
  · refine absurd ?_ hpre
    rw [← hbefore, ← List.filterMap_flatten]
    exact List.mem_filterMap.mpr ⟨j, hearlier, hdefines.at_index⟩

/-- The final type of a finished function or of a method, for which a name stands. -/
theorem lookup_general {name : Name} {g : TypeTree}
    (hname : (s.context.surroundings s.store).names name = some ⟨g, true⟩) :
    ∃ ty, ((m.check config log).functions[name]?).or ((m.check config log).traits.method? name) =
      some ty ∧ (m.check config log).store.tree ty = g := by
  change s.context.scheme? s.store name = some ⟨g, true⟩ at hname
  unfold FindContext.scheme? at hname
  split at hname
  · next fn hglobal =>
    obtain ⟨rfl, hfinished⟩ := Scheme.mk.inj (Option.some.inj hname)
    have hfunction : s.functions[name]? = some fn.ty := by
      rw [h.ready.functions]
      change s.globals[name]? = some fn at hglobal
      rw [hglobal, Option.filter_some, if_pos hfinished]
      rfl
    refine ⟨fn.ty, ?_, tree_of_le h.le (h.ready.global hglobal)⟩
    rw [h.other, hfunction, Option.some_or]
    intro ty hty
    obtain rfl := Option.some.inj (hglobal.symm.trans hty)
    cases hfinished
  · next hnone =>
    obtain ⟨ty, hmethod, hscheme⟩ := Option.map_eq_some_iff.mp hname
    obtain ⟨rfl, -⟩ := Scheme.mk.inj hscheme
    change s.globals[name]? = none at hnone
    refine ⟨ty, ?_, tree_of_le h.le (h.ready.registered.methods.method hmethod).1.1⟩
    rw [h.other (by simp [hnone]), h.ready.functions, hnone, h.traits]
    exact hmethod

end Turn

end Module

end ConstraintTyping
