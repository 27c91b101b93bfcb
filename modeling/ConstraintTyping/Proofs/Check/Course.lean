import ConstraintTyping.Proofs.Check.Groups

/-!
# The course of a check

The groups of a module, each a list of positions, are checked one after the other.  `Module.before` and
`Module.after` are the states before and after the turn of a group, when no error limit ends the check
early.  A function is provisional until the turn of its group, and finished from then on; what a
function refers to is in its own group or has had its turn before.
-/

namespace ConstraintTyping

open Store CheckState CheckM

namespace CheckM

variable {config : CheckConfig} {s : CheckState} {gs : List (List FunctionDecl)}

/-- Check groups one after the other, whatever is reported. -/
def runGroups (config : CheckConfig) (s : CheckState) (gs : List (List FunctionDecl)) : CheckState :=
  gs.foldl (fun s group => (checkGroup config group s).2) s

theorem runGroups_append (gs gs' : List (List FunctionDecl)) :
    runGroups config s (gs ++ gs') = runGroups config (runGroups config s gs) gs' :=
  List.foldl_append

theorem runs_runGroups (h : s.Ready gs) : Runs config s gs (runGroups config s gs) := by
  -- every turn leaves a state in which the other groups can have theirs
  induction gs generalizing s with
  | nil => exact .nil h
  | cons group gs ih =>
    have hchecks : Checks config group s (checkGroup config group s).2 :=
      ends_checkGroup config h.registered h.within (h.waits group List.mem_cons_self)
    exact .cons h hchecks (ih (hchecks.ready h))

theorem ready_runGroups {pre : List (List FunctionDecl)} (h : s.Ready (pre ++ gs)) :
    (runGroups config s pre).Ready gs := by
  induction pre generalizing s with
  | nil => exact h
  | cons group pre ih =>
    have hchecks : Checks config group s (checkGroup config group s).2 :=
      ends_checkGroup config h.registered h.within (h.waits group List.mem_cons_self)
    exact ih (hchecks.ready h)

/-- Without an error limit all groups are checked. -/
theorem checkGroups_eq_runGroups (hnever : ∀ n, config.limitReached n = false) :
    (checkGroups config gs s).2 = runGroups config s gs := by
  induction gs generalizing s with
  | nil => rfl
  | cons group gs ih =>
    rw [checkGroups_cons, hnever, if_neg Bool.false_ne_true]
    exact ih

end CheckM

namespace Module

variable {m : Module} {config : CheckConfig} {log : DiagnosticLog} {G H : List Nat}
  {pre mid post : List (List Nat)} {f g : FunctionDecl} {name : Name}

/-- The functions at some positions. -/
def members (m : Module) (G : List Nat) : List FunctionDecl := G.filterMap fun i => m.functions[i]?

variable (m config log) in
/-- The state after the turns of some groups. -/
def reached (done : List (List Nat)) : CheckState :=
  runGroups config (m.prepared config log) (done.map m.members)

theorem reached_append_singleton : m.reached config log (pre ++ [G]) =
    (checkGroup config (m.members G) (m.reached config log pre)).2 := by
  rw [reached, List.map_append, runGroups_append]
  rfl

variable (m config log) in
/-- The state before the turn of a group. -/
def before (G : List Nat) : CheckState := m.reached config log (m.bodyGroups.takeWhile (· ≠ G))

variable (m config log) in
/-- The state after the turn of a group. -/
def after (G : List Nat) : CheckState := (checkGroup config (m.members G) (m.before config log G)).2

theorem defines_of_mem_members (hG : G ∈ m.bodyGroups) (hf : f ∈ m.members G) :
    ∃ i ∈ G, m.Defines i f := by
  obtain ⟨i, hi, hfi⟩ := List.mem_filterMap.mp hf
  obtain ⟨f', hf'⟩ := mem_flatten_bodyGroups.mp (List.mem_flatten_of_mem hG hi)
  obtain rfl := Option.some.inj (hf'.at_index.symm.trans hfi)
  exact ⟨i, hi, hf'⟩

theorem mem_members_of_defines {i : Nat} (hi : i ∈ G) (hf : m.Defines i f) : f ∈ m.members G :=
  List.mem_filterMap.mpr ⟨i, hi, hf.at_index⟩

/-- No name is in two groups. -/
theorem eq_of_name_eq (hG : G ∈ m.bodyGroups) (hf : f ∈ m.members G) (hH : H ∈ m.bodyGroups)
    (hg : g ∈ m.members H) (hname : f.name = g.name) : G = H := by
  obtain ⟨i, hi, hfi⟩ := defines_of_mem_members hG hf
  obtain ⟨j, hj, hgj⟩ := defines_of_mem_members hH hg
  obtain rfl := hfi.name_injective hgj hname
  exact eq_of_mem_bodyGroups hG hH hi hj

section Reached

variable (config log) (h : m.bodyGroups = pre ++ post)

include h

theorem groups_of_append : m.groups = pre.map m.members ++ post.map m.members := by
  rw [groups, h, List.map_append]
  rfl

theorem ready_reached : (m.reached config log pre).Ready (post.map m.members) := by
  have hready := m.ready_prepared config log
  rw [groups_of_append h] at hready
  exact ready_runGroups hready

theorem runs_reached :
    Runs config (m.prepared config log) (pre.map m.members) (m.reached config log pre) := by
  have hready := m.ready_prepared config log
  rw [groups_of_append h] at hready
  exact runs_runGroups hready.of_append

/-- A function that did not have its turn is as it was in the beginning. -/
theorem globals_reached_of_not_mem (hname : ∀ H ∈ pre, ∀ f ∈ m.members H, f.name ≠ name) :
    (m.reached config log pre).globals[name]? = (m.prepared config log).globals[name]? := by
  refine ((runs_reached config log h).others fun hmem => ?_).1
  obtain ⟨f, hf, rfl⟩ := List.mem_map.mp hmem
  obtain ⟨group, hgroup, hf⟩ := List.mem_flatten.mp hf
  obtain ⟨H, hH, rfl⟩ := List.mem_map.mp hgroup
  exact hname H hH f hf rfl

end Reached

section Split

variable (config log) (h : m.bodyGroups = pre ++ G :: post)

include h

theorem takeWhile_of_split : m.bodyGroups.takeWhile (· ≠ G) = pre := by
  have hpre : ∀ H ∈ pre, decide (H ≠ G) = true := fun H hH => by
    have hnodup := m.nodup_bodyGroups
    rw [h, List.nodup_append] at hnodup
    exact decide_eq_true (hnodup.2.2 H hH G List.mem_cons_self)
  rw [h, List.takeWhile_append_of_pos hpre, List.takeWhile_cons_of_neg (by simp), List.append_nil]

theorem before_of_split : m.before config log G = m.reached config log pre := by
  rw [before, takeWhile_of_split h]

theorem after_of_split : m.after config log G = m.reached config log (pre ++ [G]) := by
  rw [after, before_of_split config log h, reached, reached, List.map_append, runGroups_append]
  rfl

theorem runs_before :
    Runs config (m.prepared config log) (pre.map m.members) (m.before config log G) := by
  rw [before_of_split config log h]
  exact runs_reached config log h

theorem globals_before_of_not_mem (hname : ∀ H ∈ pre, ∀ f ∈ m.members H, f.name ≠ name) :
    (m.before config log G).globals[name]? = (m.prepared config log).globals[name]? := by
  rw [before_of_split config log h]
  exact globals_reached_of_not_mem config log h hname

theorem checks_after :
    Checks config (m.members G) (m.before config log G) (m.after config log G) := by
  have hready := ready_reached config log h
  rw [← before_of_split config log h] at hready
  exact ends_checkGroup config hready.registered hready.within
    (hready.waits _ List.mem_cons_self)

end Split

section Turn

variable (config log)

/-- A function that had its turn is as its turn left it. -/
theorem globals_reached_of_mem (h : m.bodyGroups = pre ++ post) (hG : G ∈ pre)
    (hf : f ∈ m.members G) :
    (m.reached config log pre).globals[f.name]? = (m.after config log G).globals[f.name]? ∧
      (m.after config log G).store ≤ (m.reached config log pre).store := by
  obtain ⟨pre₁, mid, rfl⟩ := List.append_of_mem hG
  have hsplit : m.bodyGroups = pre₁ ++ G :: (mid ++ post) := by
    rw [h, List.append_assoc, List.cons_append]
  have hready := ready_reached config log (show m.bodyGroups = pre₁ ++ (G :: mid ++ post) from hsplit)
  have hready' := ready_reached config log (show m.bodyGroups = (pre₁ ++ [G]) ++ (mid ++ post) by
    rw [hsplit, List.append_assoc, List.singleton_append])
  rw [List.map_append] at hready'
  have hruns : Runs config _ _ _ := runs_runGroups hready'.of_append
  have hreached : m.reached config log (pre₁ ++ G :: mid) =
      runGroups config (m.reached config log (pre₁ ++ [G])) (mid.map m.members) := by
    rw [reached, reached, ← runGroups_append, ← List.map_append, List.append_assoc,
      List.singleton_append]
  rw [after_of_split config log hsplit, hreached]
  refine ⟨(hruns.others fun hmem => ?_).1, hruns.store.1.le⟩
  have hnodup := hready.nodup
  rw [List.map_append, List.map_cons, List.cons_append, List.flatten_cons, List.map_append,
    List.flatten_append, List.map_append] at hnodup
  exact List.disjoint_of_nodup_append hnodup (List.mem_map_of_mem hf) (List.mem_append_left _ hmem)

theorem not_mem_pre (h : m.bodyGroups = pre ++ G :: post) (hf : f ∈ m.members G) :
    ∀ H ∈ pre, ∀ g ∈ m.members H, g.name ≠ f.name := by
  intro H hH g hg hname
  have hnodup := m.nodup_bodyGroups
  rw [h, List.nodup_append] at hnodup
  have heq := eq_of_name_eq (m := m) (by rw [h]; exact List.mem_append_left _ hH) hg
    (by rw [h]; simp) hf hname
  exact hnodup.2.2 H hH G List.mem_cons_self heq

/-- A function of a group is provisional in the beginning. -/
theorem prepared_of_mem_members (hG : G ∈ m.bodyGroups) (hf : f ∈ m.members G) :
    ∃ ty, (m.prepared config log).globals[f.name]? = some ⟨ty, false⟩ ∧
      (m.prepared config log).SignatureOf f ty := by
  obtain ⟨-, hwaits⟩ := (m.ready_prepared config log).waits (m.members G) (List.mem_map_of_mem hG)
  obtain ⟨ty, hty, hsig, -⟩ := hwaits f hf
  exact ⟨ty, hty, hsig⟩

end Turn

/-- A name that is provisional in the beginning is that of a function of a group. -/
theorem exists_member_of_provisional {ty : TypeId}
    (h : (m.prepared config log).globals[name]? = some ⟨ty, false⟩) :
    ∃ G ∈ m.bodyGroups, ∃ f ∈ m.members G, f.name = name := by
  obtain ⟨f, hfind, hfinished, -⟩ := (m.collected_prepared config log).global h
  have hname : f.name = name := by simpa using List.find?_some hfind
  obtain ⟨-, i, hi, hfi, hfirst⟩ := List.find?_eq_some_iff_getElem.mp hfind
  have hdefines : m.Defines i f := by
    refine ⟨by rw [List.getElem?_eq_getElem hi, hfi], ?_, fun j hj g hg => ?_⟩
    · cases hbody : f.body with
      | none => rw [hbody] at hfinished; cases hfinished
      | some body => rfl
    · obtain ⟨hj', rfl⟩ := List.getElem?_eq_some_iff.mp hg
      rw [hname]
      simpa using hfirst j hj
  obtain ⟨G, hG, hiG⟩ := List.mem_flatten.mp (mem_flatten_bodyGroups.mpr ⟨f, hdefines⟩)
  exact ⟨G, hG, f, mem_members_of_defines hiG hdefines, hname⟩

/-- What a function refers to is in its own group or had its turn before. -/
theorem mem_pre_of_references (h : m.bodyGroups = pre ++ G :: post) (hf : f ∈ m.members G)
    (hname : name ∈ f.references) (hH : H ∈ m.bodyGroups) (hg : g ∈ m.members H)
    (hgname : g.name = name) : H = G ∨ H ∈ pre := by
  have hG : G ∈ m.bodyGroups := by rw [h]; simp
  obtain ⟨i, hi, hfi⟩ := defines_of_mem_members hG hf
  obtain ⟨j, hj, hgj⟩ := defines_of_mem_members hH hg
  obtain ⟨body, hbody, hmention⟩ := FunctionDecl.mem_references.mp hname
  have hrefers : m.RefersTo i j := ⟨f, g, body, hfi, hgj, hbody, by rw [hgname]; exact hmention⟩
  rcases mem_of_refersTo h hi hrefers with hsame | hearlier
  · exact .inl (eq_of_name_eq hH hg hG (mem_members_of_defines hsame hgj) rfl)
  · obtain ⟨K, hK, hjK⟩ := List.mem_flatten.mp hearlier
    have hK' : K ∈ m.bodyGroups := by rw [h]; exact List.mem_append_left _ hK
    rw [eq_of_name_eq hH hg hK' (mem_members_of_defines hjK hgj) rfl]
    exact .inr hK

end Module

end ConstraintTyping
