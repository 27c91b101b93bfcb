import ConstraintTyping.Types.Printer
import Mathlib.Data.List.Nodup
import Mathlib.Data.List.Perm.Subperm
import Mathlib.Logic.Relation
import Std.Data.String.ToNat

/-!
# Names for variables

A variable without a name of its own is given a letter when it is first met.  The search for a
letter skips the names that are taken and always ends: the letters of different numbers differ, so
there are more candidates than taken names.  What has been handed out stays, and no two variables
get the same letter.
-/

namespace ConstraintTyping

/-! ## Letters -/

theorem toList_letterName (n : Nat) :
    (letterName n).toList = Char.ofNat (97 + n % 26) ::
      (if n < 26 then [] else (Nat.repr (n / 26)).toList) := by
  have hletter : (Char.ofNat ('a'.toNat + n % 26)).toString.toList = [Char.ofNat (97 + n % 26)] := by
    simp
  unfold letterName
  split
  · exact hletter
  · rw [String.toList_append, hletter]
    rfl

/-- No two numbers have the same letters. -/
theorem letterName_injective : Function.Injective letterName := by
  intro m n h
  have hlists := congrArg String.toList h
  rw [toList_letterName, toList_letterName, List.cons.injEq] at hlists
  obtain ⟨hchar, hdigits⟩ := hlists
  have hcode : ∀ k, (Char.ofNat (97 + k % 26)).toNat = 97 + k % 26 := fun k => by
    unfold Char.ofNat
    rw [dif_pos (.inl (by omega))]
    rfl
  have hmod : m % 26 = n % 26 := by
    have hval := congrArg Char.toNat hchar
    rw [hcode, hcode] at hval
    omega
  have hne : ∀ k, (Nat.repr k).toList ≠ [] := fun k => by
    simp [Nat.repr_eq_ofList_toDigits]
  split at hdigits <;> split at hdigits
  · omega
  · exact absurd hdigits.symm (hne _)
  · exact absurd hdigits (hne _)
  · have := Nat.repr_inj.mp (String.toList_injective hdigits)
    omega

/-! ## Names on request -/

namespace VarNames

variable {names later later' : VarNames} {v w : TypeId} {name : Name}

/-- The search for a letter ends within as many further steps as there are taken names, at the first
candidate that is not taken. -/
structure SearchEnds (names : VarNames) : Prop where
  start : names.next ≤ names.firstFree
  bound : names.firstFree ≤ names.next + names.reserved.length
  free : letterName names.firstFree ∉ names.reserved
  first : ∀ n, names.next ≤ n → n < names.firstFree → letterName n ∈ names.reserved

theorem searchEnds (names : VarNames) : names.SearchEnds := by
  have hfind : ∃ n, (List.range' names.next (names.reserved.length + 1)).find?
      (fun n => !names.reserved.contains (letterName n)) = some n := by
    rw [← Option.isSome_iff_exists, List.find?_isSome]
    by_contra hnone
    -- there are more candidates than names that are taken
    have hsubset : ((List.range' names.next (names.reserved.length + 1)).map letterName) ⊆
        names.reserved := by
      intro name hname
      obtain ⟨n, hn, rfl⟩ := List.mem_map.mp hname
      by_contra hfree
      exact hnone ⟨n, hn, by simpa using hfree⟩
    have hnodup := (List.nodup_range' (s := names.next) (n := names.reserved.length + 1)).map
      letterName_injective
    have hle := (hnodup.subperm hsubset).length_le
    rw [List.length_map, List.length_range'] at hle
    omega
  obtain ⟨n, hn⟩ := hfind
  have hfirst : names.firstFree = n := by rw [firstFree, hn, Option.getD_some]
  obtain ⟨hfree, hmem, hbefore⟩ := List.find?_range'_eq_some.mp hn
  obtain ⟨hge, hlt⟩ := List.mem_range'_1.mp hmem
  refine ⟨hfirst ▸ hge, by omega, by simpa [hfirst] using hfree, fun m hm hmn => ?_⟩
  simpa using hbefore m hm (hfirst ▸ hmn)

example : letterName { reserved := ["a", "a1"], next := 26 : VarNames }.firstFree = "b1" := by decide

/-- A name was handed out before, or is handed out now. -/
theorem nameFor_cases (v : TypeId) (names : VarNames) :
    (∃ name, names.assigned.lookup v = some name ∧ nameFor v names = (name, names)) ∨
    (names.assigned.lookup v = none ∧ nameFor v names = (letterName names.firstFree,
      { names with
        assigned := (v, letterName names.firstFree) :: names.assigned
        next := names.firstFree + 1 })) := by
  unfold nameFor
  cases h : names.assigned.lookup v with
  | some name => exact .inl ⟨name, rfl, rfl⟩
  | none => exact .inr ⟨rfl, rfl⟩

theorem lookup_nameFor (v : TypeId) (names : VarNames) :
    (nameFor v names).2.assigned.lookup v = some (nameFor v names).1 := by
  rcases nameFor_cases v names with ⟨name, hname, heq⟩ | ⟨-, heq⟩ <;> rw [heq]
  · exact hname
  · exact List.lookup_cons_self

/-- Names, and the names after some variables were asked for. -/
def Leads : VarNames → VarNames → Prop :=
  Relation.ReflTransGen fun names later => ∃ v, later = (nameFor v names).2

theorem Leads.refl (names : VarNames) : names.Leads names := Relation.ReflTransGen.refl

theorem Leads.trans (h : names.Leads later) (h' : later.Leads later') : names.Leads later' :=
  Relation.ReflTransGen.trans h h'

theorem leads_nameFor (v : TypeId) (names : VarNames) : names.Leads (nameFor v names).2 :=
  .single ⟨v, rfl⟩

/-- What every request keeps holds of all names that are led to. -/
theorem Leads.keeps {P : VarNames → Prop} (hstep : ∀ v names, P names → P (nameFor v names).2)
    (h : names.Leads later) (hnames : P names) : P later := by
  induction h with
  | refl => exact hnames
  | tail _ hlast ih =>
    obtain ⟨v, rfl⟩ := hlast
    exact hstep v _ ih

/-- A name that was handed out stays. -/
theorem Leads.lookup (h : names.Leads later) (hname : names.assigned.lookup v = some name) :
    later.assigned.lookup v = some name := by
  refine h.keeps (P := fun names => names.assigned.lookup v = some name) (fun w names hv => ?_) hname
  rcases nameFor_cases w names with ⟨_, -, heq⟩ | ⟨hnone, heq⟩ <;> rw [heq]
  · exact hv
  · have hne : (v == w) = false := by
      refine beq_eq_false_iff_ne.mpr ?_
      rintro rfl
      rw [hnone] at hv
      cases hv
    rw [List.lookup_cons, hne]
    exact hv

/-! ## Distinct names -/

/-- The names that were handed out are letters up to the next candidate, no two of them the same and
none of them taken. -/
structure Apart (names : VarNames) : Prop where
  letters : ∀ p ∈ names.assigned, ∃ n < names.next, p.2 = letterName n
  free : ∀ p ∈ names.assigned, p.2 ∉ names.reserved
  nodup : (names.assigned.map Prod.snd).Nodup

theorem Apart.nameFor (h : names.Apart) (v : TypeId) : (nameFor v names).2.Apart := by
  rcases nameFor_cases v names with ⟨_, -, heq⟩ | ⟨-, heq⟩ <;> rw [heq]
  · exact h
  have hsearch := searchEnds names
  refine ⟨List.forall_mem_cons.mpr ⟨⟨_, Nat.lt_succ_self _, rfl⟩, fun p hp => ?_⟩,
    List.forall_mem_cons.mpr ⟨hsearch.free, h.free⟩, List.nodup_cons.mpr ⟨?_, h.nodup⟩⟩
  · obtain ⟨n, hn, hname⟩ := h.letters p hp
    exact ⟨n, Nat.lt_succ_of_lt (Nat.lt_of_lt_of_le hn hsearch.start), hname⟩
  · -- the letters of a later number are new
    intro hmem
    obtain ⟨p, hp, hname⟩ := List.mem_map.mp hmem
    obtain ⟨n, hn, hletter⟩ := h.letters p hp
    have := letterName_injective (hletter.symm.trans hname)
    have := hsearch.start
    omega

theorem apart_forTypes (st : Store) (types : List TypeId) : (forTypes st types).Apart :=
  ⟨nofun, nofun, List.nodup_nil⟩

theorem Leads.apart (h : names.Leads later) (hnames : names.Apart) : later.Apart :=
  h.keeps (fun v _ hn => hn.nameFor v) hnames

theorem reserved_nameFor (v : TypeId) (names : VarNames) :
    (nameFor v names).2.reserved = names.reserved := by
  rcases nameFor_cases v names with ⟨_, -, heq⟩ | ⟨-, heq⟩ <;> rw [heq]

theorem Leads.reserved_eq (h : names.Leads later) : later.reserved = names.reserved :=
  h.keeps (P := fun n => n.reserved = names.reserved)
    (fun v n hn => (reserved_nameFor v n).trans hn) rfl

theorem mem_assigned (hname : names.assigned.lookup v = some name) :
    (v, name) ∈ names.assigned := by
  obtain ⟨l₁, l₂, hl, -⟩ := List.lookup_eq_some_iff.mp hname
  rw [hl]
  simp

/-- Different variables were given different names. -/
theorem Apart.eq_of_lookup (h : names.Apart) (hv : names.assigned.lookup v = some name)
    (hw : names.assigned.lookup w = some name) : v = w :=
  congrArg Prod.fst (List.inj_on_of_nodup_map h.nodup (mem_assigned hv) (mem_assigned hw) rfl)

end VarNames

end ConstraintTyping
