/-!
# Kinds of types

The primitive types and the kinds of compound types.  Each kind has a number and a name; the number
of a primitive is also its place in every type table.
-/

namespace ConstraintTyping

/-- The primitive types.  `error` stands for a type that could not be determined. -/
inductive Prim where
  | i8 | i16 | i32 | i64 | isz
  | u8 | u16 | u32 | u64 | usz
  | f16 | f32 | f64
  | c8 | c32
  | bool | unit | error
deriving DecidableEq, Hashable, Repr, Inhabited

namespace Prim

/-- Every primitive, in the order of their numbers. -/
def all : List Prim :=
  [.i8, .i16, .i32, .i64, .isz, .u8, .u16, .u32, .u64, .usz, .f16, .f32, .f64, .c8, .c32, .bool,
    .unit, .error]

/-- The number of a primitive. -/
def number : Prim → Nat
  | .i8 => 0
  | .i16 => 1
  | .i32 => 2
  | .i64 => 3
  | .isz => 4
  | .u8 => 5
  | .u16 => 6
  | .u32 => 7
  | .u64 => 8
  | .usz => 9
  | .f16 => 10
  | .f32 => 11
  | .f64 => 12
  | .c8 => 13
  | .c32 => 14
  | .bool => 15
  | .unit => 16
  | .error => 17

/-- How many primitives there are. -/
def count : Nat := 18

/-- The name under which a primitive is written and printed. -/
def name : Prim → String
  | .i8 => "i8"
  | .i16 => "i16"
  | .i32 => "i32"
  | .i64 => "i64"
  | .isz => "isz"
  | .u8 => "u8"
  | .u16 => "u16"
  | .u32 => "u32"
  | .u64 => "u64"
  | .usz => "usz"
  | .f16 => "f16"
  | .f32 => "f32"
  | .f64 => "f64"
  | .c8 => "c8"
  | .c32 => "c32"
  | .bool => "bool"
  | .unit => "unit"
  | .error => "<error>"

/-- The primitive a program can write under a name; the error type cannot be written. -/
def ofName? (name : String) : Option Prim :=
  all.find? fun p => p ≠ .error && p.name = name

/-- Signed integers. -/
def isSignedInt : Prim → Bool
  | .i8 | .i16 | .i32 | .i64 | .isz => true
  | _ => false

/-- Unsigned integers. -/
def isUnsignedInt : Prim → Bool
  | .u8 | .u16 | .u32 | .u64 | .usz => true
  | _ => false

/-- Integers of either signedness. -/
def isInt (p : Prim) : Bool := p.isSignedInt || p.isUnsignedInt

/-- Floating-point numbers. -/
def isFloat : Prim → Bool
  | .f16 | .f32 | .f64 => true
  | _ => false

/-- Integers and floating-point numbers. -/
def isNumeric (p : Prim) : Bool := p.isInt || p.isFloat

theorem number_lt_count (p : Prim) : p.number < count := by cases p <;> decide

theorem number_injective {p q : Prim} (h : p.number = q.number) : p = q := by
  revert h; cases p <;> cases q <;> decide

/-- The list of primitives is in the order of their numbers. -/
theorem all_getElem? (p : Prim) : all[p.number]? = some p := by cases p <;> rfl

theorem number_get : ∀ i : Fin all.length, (all.get i).number = i := by decide

theorem mem_all (p : Prim) : p ∈ all := List.mem_of_getElem? (all_getElem? p)

end Prim

/-- The kinds of types: a primitive, or what a compound type is built as. -/
inductive Kind where
  | prim (p : Prim)
  | pointer | array | tuple | function
  | var
  | product | sum | trait
  | qualified
deriving DecidableEq, Hashable, Repr, Inhabited

namespace Kind

/-- Every kind, primitives first. -/
def all : List Kind :=
  Prim.all.map .prim ++
    [.pointer, .array, .tuple, .function, .var, .product, .sum, .trait, .qualified]

/-- The number of a kind; each family has a block of its own. -/
def number : Kind → Nat
  | .prim p => p.number
  | .pointer => 32
  | .array => 33
  | .tuple => 34
  | .function => 35
  | .var => 48
  | .product => 64
  | .sum => 65
  | .trait => 66
  | .qualified => 96

/-- The name of a kind in messages. -/
def name : Kind → String
  | .prim p => p.name
  | .pointer => "pointer"
  | .array => "array"
  | .tuple => "tuple"
  | .function => "function"
  | .var => "type variable"
  | .product => "product"
  | .sum => "sum"
  | .trait => "trait"
  | .qualified => "modified"

/-- The kind as it is shown for debugging. -/
def text (k : Kind) : String := "Tag::" ++ k.name

/-- The kind with a given name. -/
def ofName? (name : String) : Option Kind := all.find? (·.name = name)

/-- The primitive of a primitive kind. -/
def prim? : Kind → Option Prim
  | .prim p => some p
  | _ => none

/-- Whether a kind is primitive. -/
def isPrimitive (k : Kind) : Bool := k.prim?.isSome

/-- Whether a kind is declared by name. -/
def isNominal : Kind → Bool
  | .product | .sum | .trait => true
  | _ => false

end Kind

end ConstraintTyping
