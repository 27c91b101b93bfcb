import ConstraintTyping.Check.CallGraph
import Mathlib.Data.List.Nodup
import Mathlib.Data.List.Perm.Subperm
import Mathlib.Logic.Relation
import Mathlib.Order.Nat

/-!
# Groups are strongly connected components

A search keeps a few facts from step to step (`Search.Consistent`).  Vertices wait on the stack in the
order in which they were entered.  A vertex that is being searched reaches everything that was entered
after it and waits; whatever waits reaches back to a vertex that is being searched.  What is not being
searched has had all its edges followed.

From that it is seen when a group is complete.  If nothing links back beyond a vertex, then no edge
leads from what waits above it to what waits below, so the part of the stack above is closed, and it
is connected because everything in it reaches the vertex and is reached from it.
-/

namespace ConstraintTyping

namespace CallGraph

variable {g : CallGraph} {vertices active : List Nat}

/-- One vertex refers to another. -/
def Edge (g : CallGraph) (u v : Nat) : Prop := v ∈ g.callees u

/-- There is a way along edges, possibly of length zero. -/
abbrev Reaches (g : CallGraph) : Nat → Nat → Prop := Relation.ReflTransGen g.Edge

/-- Groups in which each member reaches each other, ascending, and such that edges lead into the same
group or an earlier one. -/
structure Components (g : CallGraph) (groups : List (List Nat)) : Prop where
  nonempty : ∀ G ∈ groups, G ≠ []
  ascending : ∀ G ∈ groups, G.Pairwise (· ≤ ·)
  connected : ∀ G ∈ groups, ∀ u ∈ G, ∀ v ∈ G, g.Reaches u v
  ordered : ∀ {before after : List (List Nat)} {G : List Nat}, groups = before ++ G :: after →
    ∀ u ∈ G, ∀ v, g.Edge u v → v ∈ before.flatten ∨ v ∈ G

namespace Components

variable {groups : List (List Nat)} {G : List Nat} {u v : Nat}

theorem nil : g.Components [] where
  nonempty := by simp
  ascending := by simp
  connected := by simp
  ordered := by simp

/-- One more group, whose edges lead into it or to the groups before. -/
theorem snoc (h : g.Components groups) (hne : G ≠ []) (hasc : G.Pairwise (· ≤ ·))
    (hconn : ∀ u ∈ G, ∀ v ∈ G, g.Reaches u v)
    (hedge : ∀ u ∈ G, ∀ v, g.Edge u v → v ∈ groups.flatten ∨ v ∈ G) :
    g.Components (groups ++ [G]) where
  nonempty := List.forall_mem_append.mpr ⟨h.nonempty, List.forall_mem_singleton.mpr hne⟩
  ascending := List.forall_mem_append.mpr ⟨h.ascending, List.forall_mem_singleton.mpr hasc⟩
  connected := List.forall_mem_append.mpr ⟨h.connected, List.forall_mem_singleton.mpr hconn⟩
  ordered := by
    intro before after H heq
    rcases List.eq_nil_or_concat after with rfl | ⟨after, last, rfl⟩
    · obtain ⟨rfl, hG⟩ := List.append_inj' heq rfl
      obtain rfl : G = H := List.head_eq_of_cons_eq hG
      exact hedge
    · rw [List.concat_eq_append, ← List.cons_append, ← List.append_assoc] at heq
      exact h.ordered (List.append_inj' heq rfl).1

/-- What is reached from a group is in it or in an earlier one. -/
theorem reaches (h : g.Components groups) {before after : List (List Nat)}
    (heq : groups = before ++ G :: after) (hu : u ∈ before.flatten ∨ u ∈ G)
    (huv : g.Reaches u v) : v ∈ before.flatten ∨ v ∈ G := by
  induction huv with
  | refl => exact hu
  | @tail w v _ hedge ih =>
    rcases ih with hw | hw
    · obtain ⟨H, hH, hwH⟩ := List.mem_flatten.mp hw
      obtain ⟨before', between, rfl⟩ := List.append_of_mem hH
      have hsplit : groups = before' ++ H :: (between ++ G :: after) := by
        rw [heq, List.append_assoc, List.cons_append]
      rcases h.ordered hsplit w hwH v hedge with hv | hv
      · exact .inl (by simp [hv])
      · exact .inl (by simp [hv])
    · exact h.ordered heq w hw v hedge

/-- Two vertices are in one group exactly when each reaches the other. -/
theorem together_iff (h : g.Components groups) (hnodup : groups.flatten.Nodup)
    (hu : u ∈ groups.flatten) (hv : v ∈ groups.flatten) :
    (∃ G ∈ groups, u ∈ G ∧ v ∈ G) ↔ g.Reaches u v ∧ g.Reaches v u := by
  constructor
  · rintro ⟨G, hG, huG, hvG⟩
    exact ⟨h.connected G hG u huG v hvG, h.connected G hG v hvG u huG⟩
  · rintro ⟨huv, hvu⟩
    obtain ⟨G, hG, huG⟩ := List.mem_flatten.mp hu
    obtain ⟨before, after, rfl⟩ := List.append_of_mem hG
    refine ⟨G, hG, huG, ?_⟩
    refine (h.reaches rfl (.inr huG) huv).resolve_left fun hvb => ?_
    -- a group before that of `u` would hold `v`, and then `u` too
    obtain ⟨H, hH, hvH⟩ := List.mem_flatten.mp hvb
    obtain ⟨before', between, rfl⟩ := List.append_of_mem hH
    have hsplit : before' ++ H :: between ++ G :: after =
        before' ++ H :: (between ++ G :: after) := by simp
    have hback := h.reaches hsplit (.inr hvH) hvu
    have hmem : u ∈ (before' ++ H :: between).flatten := by
      rcases hback with hback | hback
      · simp [hback]
      · simp [hback]
    rw [List.flatten_append, List.flatten_cons] at hnodup
    exact List.disjoint_of_nodup_append hnodup hmem (List.mem_append_left _ huG)

end Components

namespace Search

variable {s s' : Search} {u v w : Nat}

/-- How many vertices were entered before a vertex. -/
def number (s : Search) (v : Nat) : Nat := s.entered.idxOf v

theorem number?_eq_none : s.number? v = none ↔ v ∉ s.entered := List.idxOf?_eq_none_iff

theorem number?_eq_some {n : Nat} (h : s.number? v = some n) : v ∈ s.entered ∧ s.number v = n := by
  have hmem : v ∈ s.entered := by
    by_contra hnot
    rw [number?_eq_none.mpr hnot] at h
    cases h
  refine ⟨hmem, ?_⟩
  have hfind := List.findIdx?_eq_some_of_exists (p := (· == v)) ⟨v, hmem, beq_self_eq_true v⟩
  exact Option.some.inj (hfind.symm.trans h)

theorem number_lt (h : v ∈ s.entered) : s.number v < s.entered.length :=
  List.idxOf_lt_length_iff.mpr h

theorem number_enter_of_mem (h : u ∈ s.entered) : (s.enter v).number u = s.number u :=
  List.idxOf_append_of_mem h

theorem number_enter (h : v ∉ s.entered) : (s.enter v).number v = s.entered.length := by
  rw [number, enter, List.idxOf_append_of_notMem h]
  simp

/-- A search goes on: what was entered, what waits and what is complete stays. -/
structure Extends (s s' : Search) : Prop where
  entered : s.entered <+: s'.entered
  stack : s.stack <:+ s'.stack
  groups : s.groups <+: s'.groups

theorem Extends.refl (s : Search) : s.Extends s :=
  ⟨List.prefix_rfl, List.suffix_rfl, List.prefix_rfl⟩

theorem Extends.trans {s'' : Search} (h : s.Extends s') (h' : s'.Extends s'') : s.Extends s'' :=
  ⟨h.entered.trans h'.entered, h.stack.trans h'.stack, h.groups.trans h'.groups⟩

theorem extends_enter (s : Search) (v : Nat) : s.Extends (s.enter v) :=
  ⟨List.prefix_append _ _, List.suffix_cons _ _, List.prefix_rfl⟩

theorem Extends.number (h : s.Extends s') (hv : v ∈ s.entered) : s'.number v = s.number v := by
  obtain ⟨more, hmore⟩ := h.entered
  rw [Search.number, ← hmore, List.idxOf_append_of_mem hv]
  rfl

/-- A vertex that is entered later has a larger number. -/
theorem Extends.le_number (h : s.Extends s') (hv : v ∉ s.entered) :
    s.entered.length ≤ s'.number v := by
  obtain ⟨more, hmore⟩ := h.entered
  rw [Search.number, ← hmore, List.idxOf_append_of_notMem hv]
  exact Nat.le_add_right _ _

/-- What holds all along a search; `active` are the vertices that are being searched. -/
structure Consistent (g : CallGraph) (vertices : List Nat) (s : Search) (active : List Nat) :
    Prop where
  nodup : s.entered.Nodup
  subset : s.entered ⊆ vertices
  perm : (s.stack ++ s.groups.flatten).Perm s.entered
  sorted : s.stack.Pairwise fun u v => s.number v < s.number u
  active_mem : ∀ u ∈ active, u ∈ s.stack
  followed : ∀ u ∈ s.entered, u ∉ active → ∀ v, g.Edge u v → v ∈ s.entered
  /-- A vertex that is being searched reaches what was entered after it and waits. -/
  down : ∀ u ∈ active, ∀ v ∈ s.stack, s.number u ≤ s.number v → g.Reaches u v
  /-- What waits reaches back to a vertex that is being searched. -/
  up : ∀ v ∈ s.stack, ∃ u ∈ active, s.number u ≤ s.number v ∧ g.Reaches v u
  components : g.Components s.groups

namespace Consistent

theorem entered_of_stack (h : s.Consistent g vertices active) (hv : v ∈ s.stack) :
    v ∈ s.entered :=
  h.perm.subset (List.mem_append_left _ hv)

theorem stack_or_group (h : s.Consistent g vertices active) (hv : v ∈ s.entered) :
    v ∈ s.stack ∨ v ∈ s.groups.flatten :=
  List.mem_append.mp (h.perm.mem_iff.mpr hv)

/-- There is room for one more vertex. -/
theorem length_lt (h : s.Consistent g vertices active) (hv : v ∉ s.entered) (hmem : v ∈ vertices) :
    s.entered.length < vertices.length := by
  have hsub : v :: s.entered ⊆ vertices := List.cons_subset.mpr ⟨hmem, h.subset⟩
  have hnodup : (v :: s.entered).Nodup := List.nodup_cons.mpr ⟨hv, h.nodup⟩
  exact (List.subperm_of_subset hnodup hsub).length_le

theorem start (g : CallGraph) (vertices : List Nat) : Consistent g vertices {} [] where
  nodup := List.nodup_nil
  subset := List.nil_subset _
  perm := .nil
  sorted := .nil
  active_mem := by simp
  followed := by simp
  down := by simp
  up := by simp
  components := .nil

/-- A vertex is entered, and its search begins. -/
theorem enter (h : s.Consistent g vertices active) (hv : v ∉ s.entered) (hmem : v ∈ vertices)
    (hreach : ∀ u ∈ active, g.Reaches u v) :
    (s.enter v).Consistent g vertices (v :: active) := by
  have hnumber : ∀ {u}, u ∈ s.stack → (s.enter v).number u = s.number u ∧
      s.number u < (s.enter v).number v := fun hu => by
    have hu := h.entered_of_stack hu
    rw [number_enter hv]
    exact ⟨number_enter_of_mem hu, number_lt hu⟩
  refine ⟨?_, ?_, ?_, ?_, ?_, ?_, ?_, ?_, h.components⟩
  · exact List.nodup_append.mpr ⟨h.nodup, List.nodup_singleton v, by
      rintro u hu _ hw rfl
      exact hv (List.mem_singleton.mp hw ▸ hu)⟩
  · exact List.append_subset.mpr ⟨h.subset, by simpa using hmem⟩
  · exact (h.perm.cons v).trans (List.perm_append_singleton v s.entered).symm
  · refine List.pairwise_cons.mpr ⟨fun u hu => ?_, ?_⟩
    · rw [(hnumber hu).1]
      exact (hnumber hu).2
    · refine h.sorted.imp_of_mem fun {a b} ha hb hab => ?_
      rw [(hnumber ha).1, (hnumber hb).1]
      exact hab
  · exact List.forall_mem_cons.mpr ⟨List.mem_cons_self,
      fun u hu => List.mem_cons_of_mem v (h.active_mem u hu)⟩
  · intro u hu hnot w hedge
    rcases List.mem_append.mp hu with hu | hu
    · exact List.mem_append_left _
        (h.followed u hu (fun hact => hnot (List.mem_cons_of_mem v hact)) w hedge)
    · exact absurd (List.mem_singleton.mp hu ▸ List.mem_cons_self) hnot
  · intro u hu w hw hle
    rcases List.mem_cons.mp hw with rfl | hw
    · rcases List.mem_cons.mp hu with rfl | hu
      · exact .refl
      · exact hreach u hu
    · rw [(hnumber hw).1] at hle
      rcases List.mem_cons.mp hu with huv | hu
      · rw [huv] at hle
        exact absurd (hnumber hw).2 (Nat.not_lt.mpr hle)
      · rw [(hnumber (h.active_mem u hu)).1] at hle
        exact h.down u hu w hw hle
  · intro w hw
    rcases List.mem_cons.mp hw with rfl | hw
    · exact ⟨w, List.mem_cons_self, le_rfl, .refl⟩
    · obtain ⟨u, hu, hle, hreach⟩ := h.up w hw
      refine ⟨u, List.mem_cons_of_mem v hu, ?_, hreach⟩
      rw [(hnumber hw).1, (hnumber (h.active_mem u hu)).1]
      exact hle

end Consistent

/-! ## One vertex -/

/-- What a search from `v` comes to; `r` has the least number that `v` links back to. -/
structure Connects (g : CallGraph) (vertices active : List Nat) (s : Search) (v : Nat)
    (r : Nat × Search) : Prop where
  consistent : r.2.Consistent g vertices active
  extend : s.Extends r.2
  entered : v ∈ r.2.entered
  /-- A vertex that still waits links back to one that it reaches. -/
  link : v ∈ r.2.stack → ∃ u ∈ r.2.stack, r.2.number u = r.1 ∧ g.Reaches v u
  /-- A vertex that has its group links back to nothing. -/
  done : v ∉ r.2.stack → r.1 = r.2.number v
  /-- No edge from what is new on the stack leads further back. -/
  back : ∀ u ∈ r.2.stack, u ∉ s.stack → ∀ w, g.Edge u w → w ∈ s.stack → r.1 ≤ r.2.number w

/-- What following the edges from `v` to `targets` comes to. -/
structure Follows (g : CallGraph) (vertices active : List Nat) (s : Search) (v : Nat)
    (targets : List Nat) (r : Nat × Search) : Prop where
  consistent : r.2.Consistent g vertices (v :: active)
  extend : (s.enter v).Extends r.2
  low_le : r.1 ≤ s.entered.length
  link : ∃ u ∈ r.2.stack, r.2.number u = r.1 ∧ g.Reaches v u
  entered : ∀ w ∈ targets, w ∈ r.2.entered
  target : ∀ w ∈ targets, w ∈ s.stack → r.1 ≤ r.2.number w
  back : ∀ u ∈ r.2.stack, u ∉ v :: s.stack → ∀ w, g.Edge u w → w ∈ s.stack → r.1 ≤ r.2.number w

/-- A search that meets its description wherever it may be called. -/
def Explores (g : CallGraph) (vertices : List Nat) (connect : Search → Nat → Nat × Search)
    (room : Nat) : Prop :=
  ∀ {active : List Nat} {s : Search} {v : Nat}, s.Consistent g vertices active →
    v ∉ s.entered → v ∈ vertices → (∀ u ∈ active, g.Reaches u v) →
    vertices.length ≤ room + s.entered.length → Connects g vertices active s v (connect s v)

section Follow

variable {connect : Search → Nat → Nat × Search} {room : Nat} {targets : List Nat}
  {r : Nat × Search}

theorem follows_nil (h : s.Consistent g vertices active) (hv : v ∉ s.entered) (hmem : v ∈ vertices)
    (hreach : ∀ u ∈ active, g.Reaches u v) :
    Follows g vertices active s v [] (s.entered.length, s.enter v) where
  consistent := h.enter hv hmem hreach
  extend := .refl _
  low_le := le_rfl
  link := ⟨v, List.mem_cons_self, number_enter hv, .refl⟩
  entered := by simp
  target := by simp
  back u hu hnot := absurd hu hnot

/-- An edge leads to a vertex that was entered before. -/
theorem Follows.seen (h : Follows g vertices active s v targets r) (hedge : g.Edge v w)
    (hw : w ∈ r.2.entered) :
    Follows g vertices active s v (targets ++ [w])
      (if r.2.stack.contains w then min r.1 (r.2.number w) else r.1, r.2) := by
  have hle : (if r.2.stack.contains w then min r.1 (r.2.number w) else r.1) ≤ r.1 := by
    split
    · exact Nat.min_le_left _ _
    · exact le_rfl
  refine ⟨h.consistent, h.extend, hle.trans h.low_le, ?_, ?_, ?_, ?_⟩
  · show ∃ u ∈ r.2.stack, r.2.number u =
      (if r.2.stack.contains w then min r.1 (r.2.number w) else r.1) ∧ g.Reaches v u
    split
    · next hstack =>
      rcases Nat.le_total r.1 (r.2.number w) with hmin | hmin
      · rw [Nat.min_eq_left hmin]
        exact h.link
      · rw [Nat.min_eq_right hmin]
        exact ⟨w, List.contains_iff_mem.mp hstack, rfl, .single hedge⟩
    · exact h.link
  · exact List.forall_mem_append.mpr ⟨h.entered, List.forall_mem_singleton.mpr hw⟩
  · refine List.forall_mem_append.mpr ⟨fun x hx hxs => hle.trans (h.target x hx hxs),
      List.forall_mem_singleton.mpr fun hws => ?_⟩
    have hstack : w ∈ r.2.stack := h.extend.stack.subset (List.mem_cons_of_mem v hws)
    show (if r.2.stack.contains w then min r.1 (r.2.number w) else r.1) ≤ r.2.number w
    rw [if_pos (List.contains_iff_mem.mpr hstack)]
    exact Nat.min_le_right _ _
  · exact fun u hu hnot x hedge hx => hle.trans (h.back u hu hnot x hedge hx)

/-- An edge leads to a vertex that is entered then. -/
theorem Follows.new {r' : Nat × Search} (h : Follows g vertices active s v targets r)
    (hedge : g.Edge v w) (hw : w ∉ r.2.entered)
    (hr : Connects g vertices (v :: active) r.2 w r') :
    Follows g vertices active s v (targets ++ [w]) (min r.1 r'.1, r'.2) := by
  have holder : ∀ {x}, x ∈ s.stack → x ∈ r.2.stack := fun hx =>
    h.extend.stack.subset (List.mem_cons_of_mem v hx)
  have hnumber : ∀ {x}, x ∈ r.2.stack → r'.2.number x = r.2.number x := fun hx =>
    hr.extend.number (h.consistent.entered_of_stack hx)
  refine ⟨hr.consistent, h.extend.trans hr.extend, (Nat.min_le_left _ _).trans h.low_le,
    ?_, ?_, ?_, ?_⟩
  · obtain ⟨u, hu, hnum, hreach⟩ := h.link
    rcases le_or_gt r.1 r'.1 with hmin | hmin
    · refine ⟨u, hr.extend.stack.subset hu, ?_, hreach⟩
      rw [hnumber hu, hnum]
      exact (Nat.min_eq_left hmin).symm
    · -- the new vertex links back further, so it still waits
      have hwaits : w ∈ r'.2.stack := by
        by_contra hnot
        have hlate := hr.extend.le_number hw
        rw [← hr.done hnot] at hlate
        have hroom : s.entered.length ≤ r.2.entered.length :=
          ((extends_enter s v).trans h.extend).entered.length_le
        have hlow := h.low_le
        omega
      obtain ⟨x, hx, hnumx, hreachx⟩ := hr.link hwaits
      refine ⟨x, hx, ?_, .head hedge hreachx⟩
      rw [hnumx]
      exact (Nat.min_eq_right hmin.le).symm
  · refine List.forall_mem_append.mpr ⟨fun x hx => hr.extend.entered.subset (h.entered x hx),
      List.forall_mem_singleton.mpr hr.entered⟩
  · refine List.forall_mem_append.mpr ⟨fun x hx hxs => ?_, List.forall_mem_singleton.mpr fun hws =>
      absurd (h.consistent.entered_of_stack (holder hws)) hw⟩
    show min r.1 r'.1 ≤ r'.2.number x
    rw [hnumber (holder hxs)]
    exact (Nat.min_le_left _ _).trans (h.target x hx hxs)
  · intro u hu hnot x hedge' hx
    show min r.1 r'.1 ≤ r'.2.number x
    by_cases hold : u ∈ r.2.stack
    · rw [hnumber (holder hx)]
      exact (Nat.min_le_left _ _).trans (h.back u hold hnot x hedge' hx)
    · exact (Nat.min_le_right _ _).trans (hr.back u hu hold x hedge' (holder hx))

/-- Edges are followed one after the other. -/
theorem follows_foldl (hconnect : Explores g vertices connect room)
    (hclosed : ∀ u ∈ vertices, ∀ w, g.Edge u w → w ∈ vertices)
    (hmem : v ∈ vertices) (hreach : ∀ u ∈ active, g.Reaches u v)
    (hroom : vertices.length ≤ room + 1 + s.entered.length)
    (rest : List Nat) (hrest : ∀ w ∈ rest, g.Edge v w)
    (h : Follows g vertices active s v targets r) :
    Follows g vertices active s v (targets ++ rest) (rest.foldl (follow connect) r) := by
  induction rest generalizing targets r with
  | nil => simpa using h
  | cons w rest ih =>
    obtain ⟨hedge, hrest⟩ := List.forall_mem_cons.mp hrest
    have hstep : Follows g vertices active s v (targets ++ [w]) (follow connect r w) := by
      obtain ⟨low, s₁⟩ := r
      cases hn : s₁.number? w with
      | none =>
        have hw := number?_eq_none.mp hn
        simp only [follow, hn]
        refine h.new hedge hw (hconnect h.consistent hw (hclosed v hmem w hedge) ?_ ?_)
        · exact List.forall_mem_cons.mpr ⟨.single hedge,
            fun u hu => (hreach u hu).trans (.single hedge)⟩
        · have hlen := h.extend.entered.length_le
          simp only [Search.enter, List.length_append, List.length_singleton] at hlen
          show vertices.length ≤ room + s₁.entered.length
          omega
      | some n =>
        obtain ⟨hw, hnumber⟩ := number?_eq_some hn
        simp only [follow, hn, ← hnumber]
        exact h.seen hedge hw
    rw [List.foldl_cons, List.append_cons]
    exact ih hrest hstep

end Follow

/-! ## Closing a group -/

/-- The vertices above `v` on the stack make up its group. -/
theorem close_eq {above below : List Nat} (hstack : s.stack = above ++ v :: below)
    (hv : v ∉ above) : s.close v = { s with
      stack := below, groups := s.groups ++ [(v :: above).mergeSort (· ≤ ·)] } := by
  have htake : ∀ l : List Nat, v ∉ l → (l ++ v :: below).takeWhile (· ≠ v) = l ∧
      (l ++ v :: below).dropWhile (· ≠ v) = v :: below := by
    intro l
    induction l with
    | nil => simp
    | cons x l ih =>
      intro hl
      obtain ⟨hx, hl⟩ := not_or.mp (fun h => hl (List.mem_cons.mpr h))
      have hne : x ≠ v := fun heq => hx heq.symm
      simpa [hne] using ih hl
  obtain ⟨htake, hdrop⟩ := htake above hv
  rw [close, hstack, htake, hdrop]
  rfl

section Finish

variable {r : Nat × Search}

/-- All edges of a vertex have been followed, and it links back further than to itself. -/
theorem Follows.waits (h : Follows g vertices active s v (g.callees v) r) (hv : v ∉ s.entered)
    (hlow : r.1 ≠ s.entered.length) : Connects g vertices active s v r := by
  have hstack : v ∈ r.2.stack := h.extend.stack.subset List.mem_cons_self
  have hnumber : r.2.number v = s.entered.length := by
    rw [h.extend.number (by simp [Search.enter]), number_enter hv]
  have hc := h.consistent
  refine ⟨⟨hc.nodup, hc.subset, hc.perm, hc.sorted, ?_, ?_, ?_, ?_, hc.components⟩,
    (extends_enter s v).trans h.extend, hc.entered_of_stack hstack, fun _ => h.link,
    fun hnot => absurd hstack hnot, ?_⟩
  · exact fun u hu => hc.active_mem u (List.mem_cons_of_mem v hu)
  · intro u hu hnot w hedge
    by_cases huv : u = v
    · exact h.entered w (huv ▸ hedge)
    · exact hc.followed u hu (by simp [huv, hnot]) w hedge
  · exact fun u hu => hc.down u (List.mem_cons_of_mem v hu)
  · intro w hw
    obtain ⟨u, hu, hle, hreach⟩ := hc.up w hw
    rcases List.mem_cons.mp hu with rfl | hu
    · -- go on from the vertex to what it links back to, and from there to one that is active
      obtain ⟨x, hx, hnum, hreachx⟩ := h.link
      have hlt : r.2.number x < r.2.number u := by
        have hlow' := h.low_le
        omega
      obtain ⟨y, hy, hley, hreachy⟩ := hc.up x hx
      have hyact : y ∈ active := by
        rcases List.mem_cons.mp hy with rfl | hy
        · omega
        · exact hy
      exact ⟨y, hyact, by omega, (hreach.trans hreachx).trans hreachy⟩
    · exact ⟨u, hu, hle, hreach⟩
  · intro u hu hnot w hedge hw
    by_cases huv : u = v
    · exact h.target w (huv ▸ hedge) hw
    · exact h.back u hu (by simp [huv, hnot]) w hedge hw

section Closing

variable {above : List Nat} {u w : Nat} (h : Follows g vertices active s v (g.callees v) r)
  (habove : r.2.stack = above ++ v :: s.stack)
include h habove

theorem Follows.nodup_stack : (above ++ v :: s.stack).Nodup := by
  have hc := h.consistent
  have hnodup := (hc.perm.nodup_iff.mpr hc.nodup).of_append_left
  rwa [habove] at hnodup

/-- What waits below the vertex was entered before it. -/
theorem Follows.number_lt (hu : u ∈ s.stack) : r.2.number u < r.2.number v := by
  have hsorted := h.consistent.sorted
  rw [habove] at hsorted
  exact (List.pairwise_cons.mp (List.pairwise_append.mp hsorted).2.1).1 u hu

/-- The vertex was entered before what is above it. -/
theorem Follows.le_number (hu : u ∈ v :: above) :
    u ∈ r.2.stack ∧ r.2.number v ≤ r.2.number u := by
  rcases List.mem_cons.mp hu with rfl | hu
  · exact ⟨by simp [habove], le_rfl⟩
  · refine ⟨by simp [habove, hu], ?_⟩
    have hsorted := h.consistent.sorted
    rw [habove] at hsorted
    exact ((List.pairwise_append.mp hsorted).2.2 u hu v List.mem_cons_self).le

/-- What is above the vertex reaches it and is reached by it. -/
theorem Follows.reaches_group (hreach : ∀ u ∈ active, g.Reaches u v) (hu : u ∈ v :: above) :
    g.Reaches u v ∧ g.Reaches v u := by
  obtain ⟨hstack, hnumber⟩ := h.le_number habove hu
  refine ⟨?_, h.consistent.down v List.mem_cons_self _ hstack hnumber⟩
  obtain ⟨x, hx, -, hux⟩ := h.consistent.up u hstack
  rcases List.mem_cons.mp hx with rfl | hx
  · exact hux
  · exact hux.trans (hreach x hx)

/-- If nothing links back beyond the vertex, no edge leads from its group to what waits below it. -/
theorem Follows.edge_group (hs : s.Consistent g vertices active)
    (hlow : r.1 = r.2.number v) (hu : u ∈ v :: above) (hedge : g.Edge u w) :
    w ∈ r.2.groups.flatten ∨ w ∈ v :: above := by
  have hc := h.consistent
  have hdisjoint := List.disjoint_of_nodup_append (h.nodup_stack habove)
  have hentered : w ∈ r.2.entered ∧ (w ∈ s.stack → r.1 ≤ r.2.number w) := by
    rcases List.mem_cons.mp hu with rfl | hu
    · exact ⟨h.entered w hedge, h.target w hedge⟩
    · have hnot : u ∉ v :: s.stack := hdisjoint hu
      have hinactive : u ∉ v :: active := fun hact => hnot <| (List.mem_cons.mp hact).elim
        (fun huv => huv ▸ List.mem_cons_self) fun hact => List.mem_cons_of_mem v (hs.active_mem _ hact)
      exact ⟨hc.followed u (hc.entered_of_stack (by simp [habove, hu])) hinactive w hedge,
        h.back u (by simp [habove, hu]) hnot w hedge⟩
  rcases hc.stack_or_group hentered.1 with hw | hw
  · rw [habove] at hw
    rcases List.mem_append.mp hw with hw | hw
    · exact .inr (List.mem_cons_of_mem v hw)
    · rcases List.mem_cons.mp hw with rfl | hw
      · exact .inr List.mem_cons_self
      · have hle := hentered.2 hw
        have hlt := h.number_lt habove hw
        omega
  · exact .inl hw

/-- What is above the vertex is a component that leads to earlier ones only. -/
theorem Follows.components_snoc (hs : s.Consistent g vertices active)
    (hreach : ∀ u ∈ active, g.Reaches u v) (hlow : r.1 = r.2.number v) :
    g.Components (r.2.groups ++ [(v :: above).mergeSort (· ≤ ·)]) := by
  have hperm := List.mergeSort_perm (v :: above) (· ≤ ·)
  refine h.consistent.components.snoc ?_ ?_ ?_ ?_
  · intro hnil
    have hlength := hperm.length_eq
    rw [hnil] at hlength
    simp at hlength
  · have hsorted := @List.pairwise_mergeSort Nat (fun a b => decide (a ≤ b))
      (fun a b c hab hbc => by simp only [decide_eq_true_eq] at *; omega)
      (fun a b => by simp only [Bool.or_eq_true, decide_eq_true_eq]; omega) (v :: above)
    exact hsorted.imp fun hab => by simpa using hab
  · intro u hu w hw
    exact (h.reaches_group habove hreach (hperm.subset hu)).1.trans
      (h.reaches_group habove hreach (hperm.subset hw)).2
  · intro u hu w hedge
    exact (h.edge_group habove hs hlow (hperm.subset hu) hedge).imp_right
      fun hw => hperm.symm.subset hw

end Closing

/-- All edges of a vertex have been followed, and nothing links back beyond it. -/
theorem Follows.closes (h : Follows g vertices active s v (g.callees v) r) (hv : v ∉ s.entered)
    (hs : s.Consistent g vertices active) (hreach : ∀ u ∈ active, g.Reaches u v)
    (hlow : r.1 = s.entered.length) : Connects g vertices active s v (r.1, r.2.close v) := by
  have hc := h.consistent
  have hnumber : r.2.number v = s.entered.length := by
    rw [h.extend.number (by simp [Search.enter]), number_enter hv]
  obtain ⟨above, habove⟩ := h.extend.stack
  have habove : r.2.stack = above ++ v :: s.stack := habove.symm
  have hvAbove : v ∉ above := fun hmem =>
    List.disjoint_of_nodup_append (h.nodup_stack habove) hmem List.mem_cons_self
  have hextends := (extends_enter s v).trans h.extend
  rw [close_eq habove hvAbove]
  refine ⟨⟨hc.nodup, hc.subset, ?_, ?_, hs.active_mem, ?_, ?_, ?_,
    h.components_snoc habove hs hreach (hlow.trans hnumber.symm)⟩,
    ⟨hextends.entered, List.suffix_rfl, hextends.groups.trans (List.prefix_append _ _)⟩,
    hc.entered_of_stack (h.le_number habove List.mem_cons_self).1, fun hmem => ?_,
    fun _ => hlow.trans hnumber.symm, fun u hu hnot => absurd hu hnot⟩
  · refine .trans ?_ hc.perm
    rw [habove, List.flatten_append, List.flatten_singleton]
    have hmove : (s.stack ++ (r.2.groups.flatten ++ (v :: above).mergeSort (· ≤ ·))).Perm
        ((v :: above) ++ (s.stack ++ r.2.groups.flatten)) := by
      rw [← List.append_assoc]
      exact List.perm_append_comm.trans ((List.mergeSort_perm _ _).append_right _)
    refine hmove.trans ?_
    rw [← List.append_assoc]
    exact List.Perm.append_right _ List.perm_middle.symm
  · have hsorted := hc.sorted
    rw [habove] at hsorted
    exact (List.pairwise_cons.mp (List.pairwise_append.mp hsorted).2.1).2
  · intro u hu hnot w hedge
    by_cases huv : u = v
    · exact h.entered w (huv ▸ hedge)
    · exact hc.followed u hu (by simp [huv, hnot]) w hedge
  · intro u hu w hw hle
    exact hc.down u (List.mem_cons_of_mem v hu) w (by simp [habove, hw]) hle
  · intro w hw
    obtain ⟨u, hu, hle, hreachu⟩ := hc.up w (by simp [habove, hw])
    refine ⟨u, ?_, hle, hreachu⟩
    rcases List.mem_cons.mp hu with rfl | hu
    · exact absurd (h.number_lt habove hw) (Nat.not_lt.mpr hle)
    · exact hu
  · -- the vertex was not on the stack before
    exact absurd (hs.entered_of_stack hmem) hv

end Finish

end Search

/-! ## Whole searches -/

open Search

/-- A search meets its description if there is room for all vertices. -/
theorem explores_connect (hclosed : ∀ u ∈ vertices, ∀ w, g.Edge u w → w ∈ vertices) (depth : Nat) :
    Explores g vertices (g.connect depth) depth := by
  induction depth with
  | zero =>
    intro active s v hs hv hmem _ hroom
    exact absurd (hs.length_lt hv hmem) (by omega)
  | succ depth ih =>
    intro active s v hs hv hmem hreach hroom
    have hfollows := follows_foldl ih hclosed hmem hreach hroom (g.callees v) (fun _ h => h)
      (follows_nil hs hv hmem hreach)
    rw [List.nil_append] at hfollows
    set r := (g.callees v).foldl (follow (g.connect depth)) (s.entered.length, s.enter v) with hr
    have hrun : g.connect (depth + 1) s v =
        (r.1, if r.1 = s.entered.length then r.2.close v else r.2) := rfl
    rw [hrun]
    split
    · next hlow => exact hfollows.closes hv hs hreach hlow
    · next hlow => exact hfollows.waits hv hlow

/-- A search from one vertex after the other. -/
theorem consistent_foldl (hclosed : ∀ u ∈ vertices, ∀ w, g.Edge u w → w ∈ vertices)
    (hsize : vertices.length ≤ g.size) (roots : List Nat) (hroots : roots ⊆ vertices) {s : Search}
    (hs : s.Consistent g vertices []) :
    (roots.foldl g.visit s).Consistent g vertices [] ∧
      s.entered ⊆ (roots.foldl g.visit s).entered ∧ roots ⊆ (roots.foldl g.visit s).entered := by
  induction roots generalizing s with
  | nil => exact ⟨hs, List.Subset.refl _, List.nil_subset _⟩
  | cons v roots ih =>
    obtain ⟨hv, hroots⟩ := List.cons_subset.mp hroots
    have hstep : (g.visit s v).Consistent g vertices [] ∧ s.entered ⊆ (g.visit s v).entered ∧
        v ∈ (g.visit s v).entered := by
      unfold visit
      split
      · next hseen =>
        obtain ⟨n, hn⟩ := Option.isSome_iff_exists.mp hseen
        exact ⟨hs, List.Subset.refl _, (number?_eq_some hn).1⟩
      · next hnew =>
        have hnot : v ∉ s.entered := number?_eq_none.mp (by simpa using hnew)
        have hconnects := explores_connect hclosed g.size hs hnot hv (by simp)
          (hsize.trans (Nat.le_add_right _ _))
        exact ⟨hconnects.consistent, hconnects.extend.entered.subset, hconnects.entered⟩
    obtain ⟨hlast, hold, hnew⟩ := ih hroots hstep.1
    exact ⟨hlast, List.Subset.trans hstep.2.1 hold, List.cons_subset.mpr ⟨hold hstep.2.2, hnew⟩⟩

/-- The groups of a graph are its strongly connected components, each in ascending order and after the
components that it refers to. -/
theorem components_groups (hnodup : vertices.Nodup) (hsize : vertices.length ≤ g.size)
    (hclosed : ∀ u ∈ vertices, ∀ w, g.Edge u w → w ∈ vertices) :
    g.Components (g.groups vertices) ∧ (g.groups vertices).flatten.Perm vertices := by
  obtain ⟨hs, -, hall⟩ := consistent_foldl hclosed hsize vertices (List.Subset.refl _)
    (.start g vertices)
  refine ⟨hs.components, ?_⟩
  -- nothing is being searched in the end, so nothing waits
  have hstack : (vertices.foldl g.visit {}).stack = [] := by
    refine List.eq_nil_iff_forall_not_mem.mpr fun v hv => ?_
    obtain ⟨u, hu, -⟩ := hs.up v hv
    cases hu
  have hperm := hs.perm
  rw [hstack, List.nil_append] at hperm
  exact hperm.trans ((List.perm_ext_iff_of_nodup hs.nodup hnodup).mpr fun v =>
    ⟨fun hv => hs.subset hv, fun hv => hall hv⟩)

end CallGraph

end ConstraintTyping
