import ConstraintTyping.Proofs.Check.References
import Mathlib.Data.List.Sort

/-!
# A function that no other refers to

A module gets one more function, somewhere between the others, under a name that is new and that no
other body mentions.  The others move up, and refer to each other as before.  So the groups of mutually
recursive functions are the same, moved up, with perhaps one more group that is the new function alone.
-/

namespace ConstraintTyping

theorem insertIdx_eq {α : Type} {xs : List α} {p : Nat} (h : p ≤ xs.length) (a : α) :
    xs.insertIdx p a = xs.take p ++ a :: xs.drop p := by
  induction xs generalizing p with
  | nil =>
    obtain rfl : p = 0 := Nat.le_zero.mp h
    rfl
  | cons x xs ih =>
    cases p with
    | zero => rfl
    | succ p => rw [List.insertIdx_succ_cons, ih (Nat.le_of_succ_le_succ h)]; rfl

/-- Where a position goes when something is inserted. -/
def moved (p i : Nat) : Nat := if i < p then i else i + 1

theorem strictMono_moved (p : Nat) : StrictMono (moved p) := by
  intro i j h
  unfold moved
  split <;> split <;> omega

theorem moved_ne (p i : Nat) : moved p i ≠ p := by
  unfold moved
  split <;> omega

theorem exists_moved {p j : Nat} (h : j ≠ p) : ∃ i, j = moved p i := by
  rcases Nat.lt_or_gt_of_ne h with hlt | hgt
  · exact ⟨j, (if_pos hlt).symm⟩
  · refine ⟨j - 1, ?_⟩
    rw [moved, if_neg (by omega)]
    omega

theorem getElem?_insertIdx_moved {α : Type} (xs : List α) (p : Nat) (a : α) (i : Nat) :
    (xs.insertIdx p a)[moved p i]? = xs[i]? := by
  unfold moved
  split
  · next h => exact List.getElem?_insertIdx_of_lt h
  · next h => exact List.getElem?_insertIdx_of_gt (by omega)

namespace Module

/-- A module with one more function. -/
def insertFunction (m : Module) (p : Nat) (g : FunctionDecl) : Module :=
  { m with functions := m.functions.insertIdx p g }

/-- No function of a module has the name of another one or refers to it. -/
structure Unrelated (m : Module) (g : FunctionDecl) : Prop where
  name_ne : ∀ f ∈ m.functions, f.name ≠ g.name
  not_referenced : ∀ f ∈ m.functions, g.name ∉ f.references

variable {m : Module} {p i j : Nat} {f g : FunctionDecl} {G : List Nat}

/-- A group and its members: what refers to each other, directly or through others. -/
theorem mem_bodyGroup_iff (hG : G ∈ m.bodyGroups) (hi : i ∈ G) :
    j ∈ G ↔ (∃ f, m.Defines j f) ∧ Relation.ReflTransGen m.RefersTo i j ∧
      Relation.ReflTransGen m.RefersTo j i := by
  obtain ⟨hnodup, hmem, -, htogether, -⟩ := m.bodyGroups_components
  have hi' := List.mem_flatten_of_mem hG hi
  constructor
  · intro hj
    have hj' := List.mem_flatten_of_mem hG hj
    exact ⟨(hmem j).mp hj', (htogether i hi' j hj').mp ⟨G, hG, hi, hj⟩⟩
  · rintro ⟨hj, hreach⟩
    obtain ⟨H, hH, hiH, hjH⟩ := (htogether i hi' j ((hmem j).mpr hj)).mpr hreach
    rwa [eq_of_mem_bodyGroups hG hH hi hiH]

section Insert

variable (hp : p ≤ m.functions.length) (h : m.Unrelated g)

include h

theorem defines_moved_iff : (m.insertFunction p g).Defines (moved p i) f ↔ m.Defines i f := by
  have hat := getElem?_insertIdx_moved m.functions p g
  constructor
  · rintro ⟨hindex, hbody, hfirst⟩
    refine ⟨(hat i).symm.trans hindex, hbody, fun j hj f' hf' => ?_⟩
    exact hfirst (moved p j) (strictMono_moved p hj) f' ((hat j).trans hf')
  · rintro ⟨hindex, hbody, hfirst⟩
    refine ⟨(hat i).trans hindex, hbody, fun j hj f' hf' => ?_⟩
    by_cases hjp : j = p
    · have hnew : f' = g := by
        rw [insertFunction, hjp, List.getElem?_insertIdx_self] at hf'
        split at hf'
        · exact (Option.some.inj hf').symm
        · cases hf'
      rw [hnew]
      exact (h.name_ne f (List.mem_of_getElem? hindex)).symm
    · obtain ⟨k, rfl⟩ := exists_moved hjp
      exact hfirst k ((strictMono_moved p).lt_iff_lt.mp hj) f' ((hat k).symm.trans hf')

include hp

/-- The new function is the first of its name. -/
theorem defines_inserted_iff : (m.insertFunction p g).Defines p f ↔ f = g ∧ g.body.isSome := by
  have hindex : (m.insertFunction p g).functions[p]? = some g := by
    rw [insertFunction, List.getElem?_insertIdx_self, if_pos hp]
  constructor
  · rintro ⟨hf, hbody, -⟩
    obtain rfl := Option.some.inj (hindex.symm.trans hf)
    exact ⟨rfl, hbody⟩
  · rintro ⟨rfl, hbody⟩
    refine ⟨hindex, hbody, fun j hj f' hf' => ?_⟩
    rw [insertFunction, List.getElem?_insertIdx_of_lt hj] at hf'
    exact h.name_ne f' (List.mem_of_getElem? hf')

/-- Whatever is defined is the new function or one that moved. -/
theorem exists_moved_of_defines (hj : (m.insertFunction p g).Defines j f) :
    (j = p ∧ f = g) ∨ ∃ i, j = moved p i ∧ m.Defines i f := by
  by_cases hjp : j = p
  · subst hjp
    exact .inl ⟨rfl, ((defines_inserted_iff hp h).mp hj).1⟩
  · obtain ⟨i, rfl⟩ := exists_moved hjp
    exact .inr ⟨i, rfl, (defines_moved_iff h).mp hj⟩

/-- The others refer to each other as before, and not to the new one. -/
theorem refersTo_moved_iff :
    (m.insertFunction p g).RefersTo (moved p i) j ↔ ∃ k, j = moved p k ∧ m.RefersTo i k := by
  constructor
  · rintro ⟨f, f', body, hf, hf', hbody, hmentions⟩
    rw [defines_moved_iff h] at hf
    rcases exists_moved_of_defines hp h hf' with ⟨-, rfl⟩ | ⟨k, rfl, hk⟩
    · exact absurd (FunctionDecl.mem_references.mpr ⟨body, hbody, hmentions⟩)
        (h.not_referenced f (List.mem_of_getElem? hf.at_index))
    · exact ⟨k, rfl, f, f', body, hf, hk, hbody, hmentions⟩
  · rintro ⟨k, rfl, f, f', body, hf, hf', hbody, hmentions⟩
    exact ⟨f, f', body, (defines_moved_iff h).mpr hf, (defines_moved_iff h).mpr hf', hbody, hmentions⟩

theorem reaches_moved_iff : Relation.ReflTransGen (m.insertFunction p g).RefersTo (moved p i) j ↔
    ∃ k, j = moved p k ∧ Relation.ReflTransGen m.RefersTo i k := by
  constructor
  · intro hreach
    induction hreach with
    | refl => exact ⟨i, rfl, .refl⟩
    | tail _ hstep ih =>
      obtain ⟨k, rfl, hk⟩ := ih
      obtain ⟨l, rfl, hl⟩ := (refersTo_moved_iff hp h).mp hstep
      exact ⟨l, rfl, hk.tail hl⟩
  · rintro ⟨k, rfl, hk⟩
    exact hk.lift (moved p) fun a b hab => (refersTo_moved_iff hp h).mpr ⟨b, rfl, hab⟩

/-- The groups are there as before. -/
theorem map_moved_mem_bodyGroups (hG : G ∈ m.bodyGroups) :
    G.map (moved p) ∈ (m.insertFunction p g).bodyGroups := by
  obtain ⟨i, hi⟩ := List.exists_mem_of_ne_nil G (m.components_bodyGroups.1.nonempty G hG)
  obtain ⟨f, hf⟩ := mem_flatten_bodyGroups.mp (List.mem_flatten_of_mem hG hi)
  obtain ⟨G', hG', hi'⟩ := List.mem_flatten.mp
    (mem_flatten_bodyGroups.mpr ⟨f, (defines_moved_iff (p := p) h).mpr hf⟩)
  have hmem : ∀ j, j ∈ G' ↔ j ∈ G.map (moved p) := by
    intro j
    -- a group is what reaches each other, and the new function is reached from none of the others
    rw [mem_bodyGroup_iff hG' hi', List.mem_map]
    constructor
    · rintro ⟨⟨f', hf'⟩, hto, hfrom⟩
      obtain ⟨k, rfl, hk⟩ := (reaches_moved_iff hp h).mp hto
      obtain ⟨l, hl, hkl⟩ := (reaches_moved_iff hp h).mp hfrom
      obtain rfl := (strictMono_moved p).injective hl
      exact ⟨k, (mem_bodyGroup_iff hG hi).mpr ⟨⟨f', (defines_moved_iff h).mp hf'⟩, hk, hkl⟩, rfl⟩
    · rintro ⟨k, hk, rfl⟩
      obtain ⟨⟨f', hf'⟩, hto, hfrom⟩ := (mem_bodyGroup_iff hG hi).mp hk
      exact ⟨⟨f', (defines_moved_iff h).mpr hf'⟩, (reaches_moved_iff hp h).mpr ⟨k, rfl, hto⟩,
        (reaches_moved_iff hp h).mpr ⟨i, rfl, hfrom⟩⟩
  -- both are ascending
  have hasc := ((m.insertFunction p g).bodyGroups_components).2.2.1 G' hG'
  have hasc' := (((m.bodyGroups_components).2.2.1 G hG).2).map (moved p)
    fun _ _ hlt => strictMono_moved p hlt
  have hperm := (List.perm_ext_iff_of_nodup hasc.2.nodup hasc'.nodup).mpr hmem
  rw [← hperm.eq_of_pairwise' hasc.2 hasc']
  exact hG'

/-- The new function is alone in its group. -/
theorem eq_singleton_of_mem (hG : G ∈ (m.insertFunction p g).bodyGroups) (hpG : p ∈ G) : G = [p] := by
  have hall : ∀ j ∈ G, j = p := by
    intro j hj
    by_contra hne
    obtain ⟨i, rfl⟩ := exists_moved hne
    obtain ⟨k, hk, -⟩ := (reaches_moved_iff hp h).mp ((mem_bodyGroup_iff hG hj).mp hpG).2.1
    exact moved_ne p k hk.symm
  have hasc := (((m.insertFunction p g).bodyGroups_components).2.2.1 G hG).2
  exact (List.perm_ext_iff_of_nodup hasc.nodup (List.nodup_singleton p)).mpr
    (fun j => ⟨fun hj => List.mem_singleton.mpr (hall j hj), fun hj => List.mem_singleton.mp hj ▸ hpG⟩)
    |>.eq_of_pairwise' hasc (List.pairwise_singleton _ _)

/-- A group is that of the new function or was there before. -/
theorem exists_of_mem_bodyGroups (hG : G ∈ (m.insertFunction p g).bodyGroups) (hpG : p ∉ G) :
    ∃ H ∈ m.bodyGroups, G = H.map (moved p) := by
  obtain ⟨j, hj⟩ :=
    List.exists_mem_of_ne_nil G ((m.insertFunction p g).components_bodyGroups.1.nonempty G hG)
  obtain ⟨f, hf⟩ := mem_flatten_bodyGroups.mp (List.mem_flatten_of_mem hG hj)
  rcases exists_moved_of_defines hp h hf with ⟨rfl, -⟩ | ⟨i, rfl, hi⟩
  · exact absurd hj hpG
  · obtain ⟨H, hH, hiH⟩ := List.mem_flatten.mp (mem_flatten_bodyGroups.mpr ⟨f, hi⟩)
    exact ⟨H, hH, eq_of_mem_bodyGroups hG (map_moved_mem_bodyGroups hp h hH) hj
      (List.mem_map_of_mem hiH)⟩

/-- The groups are those that were there before, with that of the new function in between. -/
theorem perm_bodyGroups : (m.insertFunction p g).bodyGroups.Perm
    (m.bodyGroups.map (List.map (moved p)) ++
      (m.insertFunction p g).bodyGroups.filter (p ∈ ·)) := by
  have hold : ∀ G ∈ m.bodyGroups.map (List.map (moved p)), p ∉ G := by
    intro G hG hpG
    obtain ⟨H, -, rfl⟩ := List.mem_map.mp hG
    obtain ⟨i, -, hi⟩ := List.mem_map.mp hpG
    exact moved_ne p i hi
  have hnodup : (m.bodyGroups.map (List.map (moved p))).Nodup :=
    m.nodup_bodyGroups.map (strictMono_moved p).injective.list_map
  refine (List.perm_ext_iff_of_nodup (nodup_bodyGroups _)
    (hnodup.append ((nodup_bodyGroups _).filter _) fun G hG hG' => ?_)).mpr fun G => ?_
  · exact hold G hG (by simpa using (List.mem_filter.mp hG').2)
  · rw [List.mem_append, List.mem_filter, List.mem_map, decide_eq_true_iff]
    constructor
    · intro hG
      by_cases hpG : p ∈ G
      · exact .inr ⟨hG, hpG⟩
      · obtain ⟨H, hH, rfl⟩ := exists_of_mem_bodyGroups hp h hG hpG
        exact .inl ⟨H, hH, rfl⟩
    · rintro (⟨H, hH, rfl⟩ | ⟨hG, -⟩)
      · exact map_moved_mem_bodyGroups hp h hH
      · exact hG

end Insert

end Module

end ConstraintTyping
