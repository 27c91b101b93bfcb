import Std.Data.HashMap

/-!
# Symbols

Strings are handed out short handles.  A handle names one of sixteen shards, picked by the first
bytes of the string, and a position in it; the same string always gets the same handle, and a
handle never changes its meaning.  A shard keeps its strings by position, and a map back from each
string; the table counts the strings of all shards as they come.
-/

namespace ConstraintTyping

/-- A handle for a string: 4 bits of shard and 28 bits of position. -/
structure Symbol where
  shard : Nat
  position : Nat
deriving DecidableEq, Hashable, Repr, Inhabited

namespace Symbol

/-- Number of shards. -/
def shardCount : Nat := 16

/-- Positions below this fit a handle. -/
def positionCount : Nat := 0x10000000

/-- The handle as one word. -/
def raw (s : Symbol) : Nat := s.shard * positionCount + s.position

/-- The handle in a word. -/
def ofRaw (raw : Nat) : Symbol := ⟨raw / positionCount, raw % positionCount⟩

/-- The handle as it is shown in messages. -/
def text (s : Symbol) : String := s!"Name({s.shard}:{s.position})"

/-- The shard of a string, from its first eight bytes. -/
def shardOf (s : String) : Fin 16 :=
  let hash := (s.toUTF8.data.toList.take 8).foldl (fun h byte => h * 31 + byte.toUInt32) (0 : UInt32)
  Fin.ofNat 16 hash.toNat

end Symbol

/-- Why a string gets no handle. -/
inductive InternError where
  /-- The string is new, and the positions of its shard are used up. -/
  | shardOverflow (shard : Nat) (count : Nat)
deriving DecidableEq, Repr

/-- The wording of a string without a handle. -/
def InternError.message : InternError → String
  | .shardOverflow shard count => s!"interner shard {shard} exceeded capacity with {count} strings"

/-- The strings of a shard. -/
structure InternShard where
  /-- The position of every string. -/
  map : Std.HashMap String Nat := {}
  /-- The string at every position. -/
  strings : Array String := #[]

namespace InternShard

instance : Inhabited InternShard := ⟨{}⟩

/-- A shard with the empty string. -/
def withEmpty : InternShard := { map := ({} : Std.HashMap String Nat).insert "" 0, strings := #[""] }

/-- The shard with one more string, at the next position. -/
def push : InternShard → String → InternShard
  | ⟨map, strings⟩, s =>
    let position := strings.size
    ⟨map.insert s position, strings.push s⟩

end InternShard

/-- The strings that have handles, shard by shard, and how many there are. -/
structure SymbolTable where
  shards : Vector InternShard 16
  totalCount : Nat

namespace SymbolTable

/-- Strings that every table holds from the start. -/
def builtins : List String :=
  ["i8", "i16", "i32", "i64", "isz", "u8", "u16", "u32", "u64", "usz", "f16", "f32", "f64", "c8",
    "c32", "bool", "unit", "Add", "Sub", "Mul", "Div", "Mod", "Cmp", "Eq", "Neg", "true", "false"]

/-- Enter a string at the end of its shard. -/
def add (t : SymbolTable) (s : String) : SymbolTable :=
  let shard := Symbol.shardOf s
  ⟨t.shards.set shard.val ((t.shards.get shard).push s) shard.isLt, t.totalCount + 1⟩

/-- The handle of a string, which is entered if it is new. -/
def intern (t : SymbolTable) (s : String) : Symbol × SymbolTable :=
  let shard := Symbol.shardOf s
  match (t.shards.get shard).map[s]? with
  | some position => (⟨shard.val, position⟩, t)
  | none => (⟨shard.val, (t.shards.get shard).strings.size⟩, t.add s)

/-- The handle of a string, as long as its shard has a position for it. -/
def tryIntern (t : SymbolTable) (s : String) : Except InternError (Symbol × SymbolTable) :=
  let shard := Symbol.shardOf s
  let held := t.shards.get shard
  match held.map[s]? with
  | some position => .ok (⟨shard.val, position⟩, t)
  | none =>
    let count := held.strings.size
    if count < Symbol.positionCount then .ok (⟨shard.val, count⟩, t.add s)
    else .error (.shardOverflow shard.val count)

/-- The string of a handle. -/
def lookup? (t : SymbolTable) (s : Symbol) : Option String := do
  let shard ← t.shards[s.shard]?
  shard.strings[s.position]?

/-- Number of strings that have handles, the empty one included. -/
def size (t : SymbolTable) : Nat := t.totalCount

/-- Whether there is at most the empty string. -/
def isEmpty (t : SymbolTable) : Bool := t.size ≤ 1

/-- A table with the empty string, at the handle whose word is zero, and nothing else. -/
def bare : SymbolTable := ⟨(Vector.replicate 16 {}).set 0 .withEmpty, 1⟩

/-- A new table: the empty string and the builtins. -/
def new : SymbolTable := builtins.foldl (fun t s => (t.intern s).2) bare

end SymbolTable

end ConstraintTyping
