import ConstraintTyping.Types.Store

/-!
# Building types

One constructor per kind of type.  Each returns the number of the one type with that description and
adds it to the store on the first request.
-/

namespace ConstraintTyping

/-- Parts of which no type of the asked kind can be made. -/
structure AggregateError where
  kind : Kind
  parts : Nat
deriving DecidableEq, Repr

/-- The wording of parts that do not fit. -/
def AggregateError.message (e : AggregateError) : String :=
  s!"cannot build {e.kind.text} from {e.parts} parts"

namespace StoreM

/-- The type of a shape. -/
def intern (s : Shape TypeId) : StoreM TypeId := fun ⟨table, nominals⟩ =>
  let (id, table) := table.intern s
  (id, ⟨table, nominals⟩)

/-- A pointer to `target`. -/
def pointer (target : TypeId) : StoreM TypeId := intern (.pointer target)

/-- An array, of a known length or of any. -/
def array (elem : TypeId) (length : Option Nat) : StoreM TypeId := intern (.array elem length)

/-- A tuple; the one without elements is the unit type. -/
def tuple (items : List TypeId) : StoreM TypeId :=
  if items.isEmpty then pure TypeId.unit else intern (.tuple items)

/-- A function type. -/
def function (sig : Signature TypeId) : StoreM TypeId := intern (.function sig)

/-- The variable that a program writes under a name. -/
def namedVar (name : Name) : StoreM TypeId := intern (.var (.named name))

/-- A variable that occurs in no type so far. -/
def freshVar : StoreM TypeId := fun st => intern (.var (.fresh st.table.freshCount)) st

/-- The trait `name` at a subject and further arguments. -/
def traitType (name : Name) (subject : TypeId) (args : List TypeId) : StoreM TypeId :=
  intern (.trait name subject args)

/-- A plain type of a kind from its parts: a pointer's target, an element of an array of any
length, a tuple's elements, a function's result and parameters. -/
def aggregate (kind : Kind) (parts : List TypeId) : StoreM (Except AggregateError TypeId) :=
  match kind, parts with
  | .pointer, [target] => .ok <$> pointer target
  | .array, [elem] => .ok <$> array elem none
  | .tuple, items => .ok <$> tuple items
  | .function, ret :: params => .ok <$> function { ret, params }
  | kind, parts => pure (.error ⟨kind, parts.length⟩)

end StoreM

end ConstraintTyping
