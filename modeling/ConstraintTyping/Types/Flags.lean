/-!
# The word of facts about a type

Facts about a type are kept as the bits of one word: what occurs in the type, and what the type is
built as.  A compound type takes over the first sort from its constituents.
-/

namespace ConstraintTyping

/-- What the word of facts about a type tells. -/
inductive TypeFact where
  | hasVar | hasError | hasQualifier
  | isPrimitive | isFunction | isNominal | isVar | isQualified
deriving DecidableEq, Repr

/-- The word of facts about a type. -/
abbrev Flags := BitVec 32

namespace TypeFact

/-- The place of a fact in the word: what occurs in a type comes first, what the type is follows
from the eighth bit on. -/
def place : TypeFact → Nat
  | .hasVar => 0
  | .hasError => 1
  | .hasQualifier => 2
  | .isPrimitive => 8
  | .isFunction => 9
  | .isNominal => 10
  | .isVar => 11
  | .isQualified => 12

/-- The word in which a fact stands alone. -/
def flag (f : TypeFact) : Flags := BitVec.twoPow 32 f.place

theorem place_lt (f : TypeFact) : f.place < 13 := by cases f <;> decide

theorem place_injective {f g : TypeFact} (h : f.place = g.place) : f = g := by
  revert h; cases f <;> cases g <;> decide

end TypeFact

namespace Flags

/-- The facts that a compound type takes over from its constituents. -/
def propagateMask : Flags :=
  TypeFact.hasVar.flag ||| TypeFact.hasError.flag ||| TypeFact.hasQualifier.flag

/-- The part of a word that a compound type takes over. -/
def propagated (w : Flags) : Flags := w &&& propagateMask

/-- Whether a word tells a fact. -/
def has (w : Flags) (f : TypeFact) : Bool := w.getLsbD f.place

/-- The facts of its own that a type starts with, and those that its constituents hand on. -/
def gather (own : Flags) (parts : List Flags) : Flags :=
  parts.foldl (fun w part => w ||| propagated part) own

/-! ## Bits -/

theorem getLsbD_flag (f : TypeFact) (n : Nat) : f.flag.getLsbD n = decide (f.place = n) := by
  have hlt : f.place < 32 := Nat.lt_trans f.place_lt (by decide)
  rw [TypeFact.flag, BitVec.getLsbD_twoPow, decide_eq_true hlt, Bool.true_and]

@[simp] theorem has_zero (f : TypeFact) : has 0 f = false := BitVec.getLsbD_zero

@[simp] theorem has_or (v w : Flags) (f : TypeFact) : has (v ||| w) f = (v.has f || w.has f) :=
  BitVec.getLsbD_or

@[simp] theorem has_flag (f g : TypeFact) : has f.flag g = decide (f = g) := by
  rw [has, getLsbD_flag]
  exact decide_eq_decide.mpr ⟨TypeFact.place_injective, congrArg TypeFact.place⟩

theorem getLsbD_propagated (w : Flags) (n : Nat) :
    w.propagated.getLsbD n = (w.getLsbD n && decide (n < 3)) := by
  rw [propagated, BitVec.getLsbD_and, propagateMask, BitVec.getLsbD_or, BitVec.getLsbD_or,
    getLsbD_flag, getLsbD_flag, getLsbD_flag]
  refine congrArg (w.getLsbD n && ·) ?_
  match n with
  | 0 | 1 | 2 => rfl
  | n + 3 => exact (decide_eq_false (by omega : ¬ n + 3 < 3)).symm

/-- A bit of a gathered word is one of its own, or was handed on. -/
theorem getLsbD_gather (own : Flags) (parts : List Flags) (n : Nat) :
    (gather own parts).getLsbD n =
      (own.getLsbD n || decide (n < 3) && parts.any fun part => part.getLsbD n) := by
  induction parts generalizing own with
  | nil => simp [gather]
  | cons part parts ih =>
    show (gather (own ||| propagated part) parts).getLsbD n = _
    rw [ih, BitVec.getLsbD_or, getLsbD_propagated, List.any_cons]
    cases own.getLsbD n <;> cases part.getLsbD n <;> cases decide (n < 3) <;> simp

end Flags

end ConstraintTyping
