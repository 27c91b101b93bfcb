import ConstraintTyping.Types.Flags
import ConstraintTyping.Types.Shape

/-!
# Payloads

A type is stored as its kind and a list of words, its payload.  What the words mean depends on the
kind: a pointer has the number of its target, a function its result, a word of switches, the number
of its parameters, then the parameters and the constraints.  `Shape.layout` lays a shape out and
`Shape.ofPayload` reads it back; that nothing is lost is `Shape.ofPayload_layout`.
-/

namespace ConstraintTyping

/-- The number of a type in a type table. -/
abbrev TypeId := Nat

/-- A word of a payload.  Types stand in a payload by their numbers. -/
abbrev Word := Nat

/-! ## Words of names, qualifiers and lengths -/

/-- One more than the largest digit that a character makes. -/
def charBase : Nat := 0x110001

/-- The word of a name, which tells it from all others: its characters as digits, the first one
lowest. -/
def nameWord (name : Name) : Word :=
  name.toList.foldr (fun c word => word * charBase + (c.toNat + 1)) 0

/-- The characters whose digits make a word. -/
def charsOfWord (word : Word) : List Char :=
  if h : word = 0 then []
  else
    have : word / charBase < word := Nat.div_lt_self (Nat.pos_of_ne_zero h) (by decide)
    Char.ofNat (word % charBase - 1) :: charsOfWord (word / charBase)

/-- The name of a word. -/
def nameOfWord (word : Word) : Name := String.ofList (charsOfWord word)

theorem toNat_lt_charBase (c : Char) : c.toNat + 1 < charBase := by
  have h : c.toNat < 0x110000 := by
    rcases c.valid with h | ⟨-, h⟩
    · exact Nat.lt_trans h (by decide)
    · exact h
  have : charBase = 0x110001 := rfl
  omega

/-- The lowest digit of a word makes the first character. -/
theorem charsOfWord_digit (c : Char) (word : Word) :
    charsOfWord (word * charBase + (c.toNat + 1)) = c :: charsOfWord word := by
  have hdigit := toNat_lt_charBase c
  have hmod : (word * charBase + (c.toNat + 1)) % charBase = c.toNat + 1 := by
    rw [Nat.mul_add_mod_self_right, Nat.mod_eq_of_lt hdigit]
  have hdiv : (word * charBase + (c.toNat + 1)) / charBase = word := by
    rw [Nat.add_comm, Nat.add_mul_div_right _ _ (by decide), Nat.div_eq_of_lt hdigit, Nat.zero_add]
  have hne : word * charBase + (c.toNat + 1) ≠ 0 := Nat.succ_ne_zero _
  rw [charsOfWord, dif_neg hne]
  simp only [hmod, hdiv, Nat.add_sub_cancel, Char.ofNat_toNat]

theorem charsOfWord_foldr (cs : List Char) :
    charsOfWord (cs.foldr (fun c word => word * charBase + (c.toNat + 1)) 0) = cs := by
  induction cs with
  | nil => rw [List.foldr_nil, charsOfWord, dif_pos rfl]
  | cons c cs ih => rw [List.foldr_cons, charsOfWord_digit, ih]

@[simp] theorem nameOfWord_nameWord (name : Name) : nameOfWord (nameWord name) = name := by
  rw [nameOfWord, nameWord, charsOfWord_foldr, String.ofList_toList]

namespace Qualifier

/-- The word of a qualifier. -/
def word : Qualifier → Word
  | .mutable => 0
  | .constant => 1
  | .global => 2
  | .comptime => 3

/-- The qualifier of a word. -/
def ofWord : Word → Qualifier
  | 0 => .mutable
  | 1 => .constant
  | 2 => .global
  | _ => .comptime

@[simp] theorem ofWord_word (q : Qualifier) : ofWord q.word = q := by cases q <;> rfl

end Qualifier

/-- The words of an array's length: whether it is known, then its lower and its upper half. -/
def lengthWords : Option Nat → List Word
  | some n => [1, n % 0x100000000, n >>> 32]
  | none => [0, 0, 0]

/-- The length in three words. -/
def lengthOfWords (known low high : Word) : Option Nat :=
  if known ≠ 0 then some (low ||| high <<< 32) else none

theorem lengthOfWords_lengthWords (length : Option Nat) : ∃ known low high,
    lengthWords length = [known, low, high] ∧ lengthOfWords known low high = length := by
  cases length with
  | none => exact ⟨0, 0, 0, rfl, rfl⟩
  | some n =>
    have hlow : n % 0x100000000 < 2 ^ 32 := Nat.mod_lt n (by decide)
    refine ⟨1, n % 0x100000000, n >>> 32, rfl, congrArg some ?_⟩
    rw [Nat.or_comm, ← Nat.shiftLeft_add_eq_or_of_lt hlow, Nat.shiftLeft_eq,
      Nat.shiftRight_eq_div_pow, Nat.mul_comm]
    exact Nat.div_add_mod n (2 ^ 32)

namespace Signature

/-- The switch of a function that is used at compile time. -/
def metaSwitch : Word := 1 <<< 0

/-- The switch of a function that takes further arguments. -/
def variadicSwitch : Word := 1 <<< 1

/-- The switches of a function as one word. -/
def switches {α : Type} (sig : Signature α) : Word :=
  (if sig.isMeta then metaSwitch else 0) ||| (if sig.isVariadic then variadicSwitch else 0)

theorem isMeta_switches {α : Type} (sig : Signature α) :
    decide (sig.switches &&& metaSwitch ≠ 0) = sig.isMeta := by
  unfold switches
  cases sig.isMeta <;> cases sig.isVariadic <;> decide

theorem isVariadic_switches {α : Type} (sig : Signature α) :
    decide (sig.switches &&& variadicSwitch ≠ 0) = sig.isVariadic := by
  unfold switches
  cases sig.isMeta <;> cases sig.isVariadic <;> decide

/-- The signature in the payload of a function. -/
def ofPayload (payload : List Word) : Signature TypeId :=
  let count := payload.getD 2 0
  { ret := payload.getD 0 0
    params := (payload.drop 3).take count
    givens := payload.drop (3 + count)
    isMeta := payload.getD 1 0 &&& metaSwitch ≠ 0
    isVariadic := payload.getD 1 0 &&& variadicSwitch ≠ 0 }

end Signature

namespace VarIdent

/-- The word in front of a name. -/
def namedSwitch : Word := 0

/-- The word in front of a number. -/
def freshSwitch : Word := 1

/-- The payload of a variable. -/
def payload : VarIdent → List Word
  | .named name => [namedSwitch, nameWord name]
  | .fresh number => [freshSwitch, number]

/-- The variable in a payload. -/
def ofPayload (payload : List Word) : VarIdent :=
  if payload.getD 0 0 = namedSwitch then .named (nameOfWord (payload.getD 1 0))
  else .fresh (payload.getD 1 0)

@[simp] theorem ofPayload_payload (ident : VarIdent) : ofPayload ident.payload = ident := by
  cases ident with
  | named name => simp [ofPayload, payload]
  | fresh number => rfl

end VarIdent

/-! ## Laying out a shape -/

/-- How a type is stored: its kind and payload, the constituents from which it takes over facts and
weight, and the facts of its own. -/
structure Layout where
  kind : Kind
  payload : List Word
  children : List TypeId
  own : Flags

namespace Shape

/-- The layout of a shape, kind by kind. -/
def layout : Shape TypeId → Layout
  | .prim p =>
    { kind := .prim p, payload := [], children := []
      own := if p = .error then TypeFact.isPrimitive.flag ||| TypeFact.hasError.flag
        else TypeFact.isPrimitive.flag }
  | .pointer target => { kind := .pointer, payload := [target], children := [target], own := 0 }
  | .array elem length =>
    { kind := .array, payload := elem :: lengthWords length, children := [elem], own := 0 }
  | .tuple items => { kind := .tuple, payload := items, children := items, own := 0 }
  | .function sig =>
    { kind := .function
      payload := sig.ret :: sig.switches :: sig.params.length :: (sig.params ++ sig.givens)
      children := sig.ret :: (sig.params ++ sig.givens)
      own := TypeFact.isFunction.flag }
  | .var ident =>
    { kind := .var, payload := ident.payload, children := []
      own := TypeFact.isVar.flag ||| TypeFact.hasVar.flag }
  | .product name args =>
    { kind := .product, payload := nameWord name :: args, children := args
      own := TypeFact.isNominal.flag }
  | .sum name args =>
    { kind := .sum, payload := nameWord name :: args, children := args
      own := TypeFact.isNominal.flag }
  | .trait name subject args =>
    { kind := .trait, payload := nameWord name :: subject :: args, children := subject :: args
      own := TypeFact.isNominal.flag }
  | .qualified q base =>
    { kind := .qualified, payload := [q.word, base], children := [base]
      own := TypeFact.isQualified.flag ||| TypeFact.hasQualifier.flag }

/-- The shape that a kind and a payload stand for. -/
def ofPayload (kind : Kind) (payload : List Word) : Shape TypeId :=
  match kind with
  | .prim p => .prim p
  | .pointer => .pointer (payload.getD 0 0)
  | .array => .array (payload.getD 0 0)
      (lengthOfWords (payload.getD 1 0) (payload.getD 2 0) (payload.getD 3 0))
  | .tuple => .tuple payload
  | .function => .function (.ofPayload payload)
  | .var => .var (.ofPayload payload)
  | .product => .product (nameOfWord (payload.getD 0 0)) (payload.drop 1)
  | .sum => .sum (nameOfWord (payload.getD 0 0)) (payload.drop 1)
  | .trait => .trait (nameOfWord (payload.getD 0 0)) (payload.getD 1 0) (payload.drop 2)
  | .qualified => .qualified (.ofWord (payload.getD 0 0)) (payload.getD 1 0)

@[simp] theorem kind_layout (s : Shape TypeId) : s.layout.kind = s.kind := by cases s <;> rfl

@[simp] theorem children_layout (s : Shape TypeId) : s.layout.children = s.children := by
  cases s <;> rfl

theorem ofPayload_function (sig : Signature TypeId) :
    Signature.ofPayload (layout (.function sig)).payload = sig := by
  have hmeta := sig.isMeta_switches
  have hvariadic := sig.isVariadic_switches
  obtain ⟨ret, params, givens, isMeta, isVariadic⟩ := sig
  have hgivens : (params ++ givens).drop params.length = givens := List.drop_left
  have hparams : (params ++ givens).take params.length = params := List.take_left
  simp only [Signature.ofPayload, layout, List.getD_cons_zero, List.getD_cons_succ,
    List.drop_succ_cons, List.drop_zero, Nat.add_comm 3, hgivens, hparams, hmeta, hvariadic]

/-- A shape is read back from its layout. -/
@[simp] theorem ofPayload_layout (s : Shape TypeId) : ofPayload s.kind s.layout.payload = s := by
  cases s with
  | prim _ | pointer _ | tuple _ => rfl
  | array elem length =>
    obtain ⟨known, low, high, hwords, hlength⟩ := lengthOfWords_lengthWords length
    simp [ofPayload, kind, layout, hwords, hlength]
  | function sig => exact congrArg Shape.function (ofPayload_function sig)
  | var ident => exact congrArg Shape.var ident.ofPayload_payload
  | product name args | sum name args | trait name subject args | qualified q base =>
    simp [ofPayload, kind, layout]

/-- Shapes that are stored alike are the same. -/
theorem layout_injective {s t : Shape TypeId} (hkind : s.kind = t.kind)
    (hpayload : s.layout.payload = t.layout.payload) : s = t := by
  rw [← ofPayload_layout s, ← ofPayload_layout t, hkind, hpayload]

end Shape

end ConstraintTyping
