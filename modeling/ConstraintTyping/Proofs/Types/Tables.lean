import Mathlib.Data.List.Forall2
import Mathlib.Data.List.Nodup
import Std.Data.HashMap

/-!
# Entering records in a table

A table that records are entered in one after the other holds every key of the records, and holds
nothing but records and what it held before.  Where entries are only made for what is not there yet,
the first of several equal ones counts.
-/

namespace ConstraintTyping

section Table

variable {κ α : Type} [BEq κ] [Hashable κ] [LawfulBEq κ]

/-- A table that records are entered in. -/
def enterAll (table : Std.HashMap κ α) (records : List (κ × α)) : Std.HashMap κ α :=
  records.foldl (fun types r => types.insert r.1 r.2) table

theorem mem_of_getElem?_enterAll {table : Std.HashMap κ α} {records : List (κ × α)}
    {id : κ} {a : α} (h : (enterAll table records)[id]? = some a) :
    (id, a) ∈ records ∨ table[id]? = some a := by
  induction records generalizing table with
  | nil => exact .inr h
  | cons r records ih =>
    rcases @ih (table.insert r.1 r.2) h with hmem | hmem
    · exact .inl (List.mem_cons_of_mem _ hmem)
    · rw [Std.HashMap.getElem?_insert] at hmem
      split at hmem
      · next heq =>
        rw [← Option.some.inj hmem, ← eq_of_beq heq]
        exact .inl List.mem_cons_self
      · exact .inr hmem

theorem isSome_getElem?_enterAll {table : Std.HashMap κ α} {records : List (κ × α)}
    {id : κ} (h : id ∈ records.map Prod.fst ∨ (table[id]?).isSome = true) :
    ((enterAll table records)[id]?).isSome = true := by
  induction records generalizing table with
  | nil => exact h.resolve_left (by simp)
  | cons r records ih =>
    refine @ih (table.insert r.1 r.2) ?_
    rw [Std.HashMap.getElem?_insert]
    by_cases heq : r.1 = id
    · exact .inr (by simp [heq])
    · simp only [List.map_cons, List.mem_cons] at h
      rcases h with (h | h) | h
      · exact absurd h.symm heq
      · exact .inl h
      · exact .inr (by simpa [heq] using h)

omit [LawfulBEq κ] in
theorem insertMany_eq_enterAll (table : Std.HashMap κ α) (records : List (κ × α)) :
    table.insertMany records = enterAll table records := by
  induction records generalizing table with
  | nil => exact Std.HashMap.insertMany_nil
  | cons r records ih =>
    obtain ⟨id, a⟩ := r
    rw [Std.HashMap.insertMany_cons, ih]
    rfl

omit [LawfulBEq κ] in
theorem ofList_eq_enterAll (records : List (κ × α)) :
    Std.HashMap.ofList records = enterAll ∅ records := by
  rw [Std.HashMap.ofList_eq_insertMany_empty, insertMany_eq_enterAll]

/-- Records that are related enter related tables. -/
theorem rel_enterAll {β : Type} {r : α → β → Prop} {table : Std.HashMap κ α}
    {table' : Std.HashMap κ β} {records : List (κ × α)} {records' : List (κ × β)}
    (htable : ∀ id : κ, Option.Rel r table[id]? table'[id]?)
    (h : List.Forall₂ (fun p q => q.1 = p.1 ∧ r p.2 q.2) records records') (id : κ) :
    Option.Rel r (enterAll table records)[id]? (enterAll table' records')[id]? := by
  induction h generalizing table table' with
  | nil => exact htable id
  | @cons p q records records' hpq _ ih =>
    obtain ⟨key, a⟩ := p
    obtain ⟨_, b⟩ := q
    obtain ⟨rfl, hab⟩ := hpq
    refine ih fun id' => ?_
    rw [Std.HashMap.getElem?_insert, Std.HashMap.getElem?_insert]
    split
    · exact .some hab
    · exact htable id'

/-- A table into which another is entered holds what the other holds, and else what it held. -/
theorem getElem?_insertMany_toList (table other : Std.HashMap κ α) (id : κ) :
    (table.insertMany other.toList)[id]? = other[id]?.or table[id]? := by
  cases h : other[id]? with
  | some a =>
    exact Std.HashMap.getElem?_insertMany_list_of_mem (beq_self_eq_true id)
      Std.HashMap.distinct_keys_toList (Std.HashMap.mem_toList_iff_getElem?_eq_some.mpr h)
  | none =>
    refine Std.HashMap.getElem?_insertMany_list_of_contains_eq_false ?_
    rw [Std.HashMap.map_fst_toList_eq_keys, Std.HashMap.contains_keys,
      Std.HashMap.contains_eq_isSome_getElem?, h]
    rfl

/-- Among records with different keys there is at most one for a key. -/
theorem toList_getElem?_ofList [DecidableEq κ] {key : α → κ} {xs : List α} (h : (xs.map key).Nodup)
    (k : κ) : (Std.HashMap.ofList (xs.map fun x => (key x, x)))[k]?.toList =
      xs.filter fun x => key x = k := by
  have hmem : ∀ {x}, (Std.HashMap.ofList (xs.map fun x => (key x, x)))[k]? = some x →
      x ∈ xs ∧ key x = k := fun {x} hx => by
    rw [ofList_eq_enterAll] at hx
    rcases mem_of_getElem?_enterAll hx with hx | hx
    · obtain ⟨y, hy, heq⟩ := List.mem_map.mp hx
      obtain ⟨rfl, rfl⟩ := Prod.mk.inj heq
      exact ⟨hy, rfl⟩
    · simp at hx
  cases hfound : (Std.HashMap.ofList (xs.map fun x => (key x, x)))[k]? with
  | none =>
    refine (List.filter_eq_nil_iff.mpr fun x hx hk => ?_).symm
    have hsome : ((enterAll ∅ (xs.map fun x => (key x, x)))[k]?).isSome = true :=
      isSome_getElem?_enterAll (.inl (by simpa using ⟨x, hx, by simpa using hk⟩))
    rw [← ofList_eq_enterAll, hfound] at hsome
    cases hsome
  | some x =>
    obtain ⟨hx, hk⟩ := hmem hfound
    have hnodup := (List.Nodup.of_map key h).filter fun x => key x = k
    refine List.singleton_perm.mp
      ((List.perm_ext_iff_of_nodup (List.nodup_singleton x) hnodup).mpr fun y => ?_)
    rw [List.mem_singleton, List.mem_filter, decide_eq_true_iff]
    exact ⟨fun heq => heq ▸ ⟨hx, hk⟩, fun ⟨hy, hky⟩ => List.inj_on_of_nodup_map h hy hx (hky.trans hk.symm)⟩

end Table

/-! ## Each once -/

section NewTo

variable {α : Type} [BEq α] {known : List α} {x : α} {xs : List α}

/-- The members of a list that are new to another one: in order, each once. -/
def newTo (known xs : List α) : List α := (xs.filter fun x => !known.contains x).eraseDups

theorem newTo_nil (xs : List α) : newTo [] xs = xs.eraseDups := by simp [newTo]

variable [LawfulBEq α]

theorem newTo_cons_of_mem (h : x ∈ known) : newTo known (x :: xs) = newTo known xs := by
  rw [newTo, List.filter_cons_of_neg (by simpa using h), newTo]

/-- A member that is new is known from then on. -/
theorem newTo_cons_of_not_mem (known' : List α) (h : x ∉ known)
    (hknown : ∀ y, y ∈ known' ↔ y = x ∨ y ∈ known) :
    newTo known (x :: xs) = x :: newTo known' xs := by
  rw [newTo, List.filter_cons_of_pos (by simpa using h), List.eraseDups_cons, List.filter_filter]
  congr 2
  refine List.filter_congr fun y _ => ?_
  rw [Bool.eq_iff_iff]
  simp [hknown]

/-- What is new in a list and then in another one, for which the first list is known. -/
theorem newTo_append (known xs ys : List α) :
    newTo known (xs ++ ys) = newTo known xs ++ newTo (known ++ newTo known xs) ys := by
  unfold newTo
  rw [List.filter_append, List.eraseDups_append, List.removeAll, List.filter_filter]
  congr 2
  apply List.filter_congr
  intro y _
  rw [Bool.eq_iff_iff]
  by_cases hy : y ∈ known <;> simp [hy]

end NewTo

end ConstraintTyping
