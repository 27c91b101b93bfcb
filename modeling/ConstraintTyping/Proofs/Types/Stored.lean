import ConstraintTyping.Types.Table

/-!
# The list of shapes behind a table

A type table keeps kinds, payload words and two maps.  Read through `Shape.ofPayload` it is a plain
list of shapes, each once: a look-up through the maps is a search of that list, and entering a shape
either finds its position or appends it (`TypeTable.shapes_intern`).  What is proved of a table as a
list of shapes is therefore proved of the words.
-/

namespace ConstraintTyping

namespace TypeData

variable {d : TypeData} {s : Shape TypeId} {i : TypeId}

/-- The shapes that a table stands for, in the order of their numbers. -/
def shapes (d : TypeData) : List (Shape TypeId) := d.items.toList.map d.shapeOf

theorem length_shapes (d : TypeData) : d.shapes.length = d.items.size := by simp [shapes]

theorem getElem?_shapes (d : TypeData) (i : TypeId) : d.shapes[i]? = (d.node? i).map Node.shape := by
  simp [shapes, node?, Function.comp_def]

/-- What is appended as words reads as one more shape. -/
theorem Sound.shapes_push (h : d.Sound) (s : Shape TypeId) : (d.push s).shapes = d.shapes ++ [s] := by
  refine List.ext_getElem? fun i => ?_
  rw [getElem?_shapes, h.node?_push]
  split
  · next hi => simp [hi, ← length_shapes]
  · next hi =>
    rw [← getElem?_shapes]
    rcases Nat.lt_or_gt_of_ne hi with hlt | hgt
    · rw [List.getElem?_append_left (by rwa [length_shapes])]
    · rw [List.getElem?_eq_none, List.getElem?_eq_none]
      · rw [List.length_append, length_shapes]
        exact hgt
      · rw [length_shapes]
        exact Nat.le_of_lt hgt

/-- A shape is found exactly where it stands in the list. -/
theorem Sound.find?_iff_getElem? (h : d.Sound) : d.find? s = some i ↔ d.shapes[i]? = some s := by
  rw [h.find?_iff, getElem?_shapes, Option.map_eq_some_iff]

/-- The maps and a search of the list give the same answer. -/
theorem Sound.find?_eq_idxOf? (h : d.Sound) (s : Shape TypeId) : d.find? s = d.shapes.idxOf? s := by
  cases hfind : d.find? s with
  | none =>
    refine (List.findIdx?_eq_none_iff.mpr fun t ht => ?_).symm
    obtain ⟨i, hi⟩ := List.getElem?_of_mem ht
    have hne : t ≠ s := by
      rintro rfl
      rw [h.find?_iff_getElem?.mpr hi] at hfind
      cases hfind
    simpa using hne
  | some i =>
    obtain ⟨hi, hs⟩ := List.getElem?_eq_some_iff.mp (h.find?_iff_getElem?.mp hfind)
    refine (List.findIdx?_eq_some_iff_getElem.mpr ⟨hi, by simpa using hs, fun j hj => ?_⟩).symm
    have hne : d.shapes[j] ≠ s := fun hs => by
      have hfind' := h.find?_iff_getElem?.mpr (List.getElem?_eq_some_iff.mpr ⟨_, hs⟩)
      exact Nat.ne_of_lt hj (Option.some.inj (hfind'.symm.trans hfind))
    simpa using hne

end TypeData

/-- Entering a shape into a list of shapes: its position, or a new one at the end.  A shape over
numbers beyond the list is refused. -/
def enterShape (shapes : List (Shape TypeId)) (s : Shape TypeId) :
    TypeId × List (Shape TypeId) :=
  match shapes.idxOf? s with
  | some id => (id, shapes)
  | none =>
    if ∀ c ∈ s.children, c < shapes.length then (shapes.length, shapes ++ [s])
    else (TypeId.error, shapes)

/-- Entering a shape into a table of words is entering it, without the qualifiers of its
constituents, into the list of shapes. -/
theorem TypeTable.shapes_intern (t : TypeTable) (s : Shape TypeId) :
    ((t.intern s).1, (t.intern s).2.shapes) = enterShape t.shapes (t.key s) := by
  rw [enterShape, ← t.lawful.find?_eq_idxOf?, TypeData.length_shapes]
  unfold intern
  split
  · next id h => rw [h]
  · next h =>
    split
    · next below =>
      show (t.items.size, (t.push (t.key s)).shapes) = _
      rw [h, t.lawful.shapes_push]
    · next below => rw [h]

end ConstraintTyping
