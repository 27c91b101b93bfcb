import Std.Data.HashMap
import ConstraintTyping.Types.Payload

/-!
# The type table

Every type is a number into a table.  The table keeps the kinds of its types, their facts and their
weights side by side, and one array with the payloads of all of them, each behind its length.  A
payload is written by `Shape.layout` and read by `Shape.ofPayload`; two maps find the type that was
entered before, one by qualifier and base for qualified types, one by kind and payload for all
others.

The table holds each shape once, so two types are the same exactly when their numbers are, and a
type's constituents always have smaller numbers than the type itself; walks over a type therefore
end because the number goes down.  Constituents are stored without their qualifiers: a pointer to
`mut i32` and a pointer to `i32` are one type.  Only a qualified type can sit on top of another
qualified type.

What a table promises is part of its type.  There is one way to extend it, `TypeTable.intern`.
-/

namespace ConstraintTyping

namespace TypeId

/-- The number of a primitive, the same in every table. -/
abbrev ofPrim (p : Prim) : TypeId := p.number

/-- The type of integer literals. -/
abbrev i32 : TypeId := ofPrim .i32

/-- The type of floating-point literals. -/
abbrev f64 : TypeId := ofPrim .f64

/-- The type of characters. -/
abbrev c8 : TypeId := ofPrim .c8

/-- The type of truth values. -/
abbrev bool : TypeId := ofPrim .bool

/-- The type with one value. -/
abbrev unit : TypeId := ofPrim .unit

/-- The type of an expression whose type could not be determined. -/
abbrev error : TypeId := ofPrim .error

/-- The word that numbers no type. -/
def absent : TypeId := 0xffffffff

/-- Whether the number belongs to a primitive. -/
def isPrimitive (id : TypeId) : Bool := id < Prim.count

/-- Whether the number belongs to the error type. -/
def isError (id : TypeId) : Bool := id == error

/-- Whether the number is the one that stands for no type. -/
def isAbsent (id : TypeId) : Bool := id == absent

/-- A type number as it is shown in messages; primitives are shown by name. -/
def text (id : TypeId) : String :=
  if id.isAbsent then "Idx::NONE"
  else match Prim.all[id]? with
    | some p => "Idx::" ++ p.name
    | none => s!"Idx({id})"

end TypeId

/-- The largest weight that is told apart. -/
def maxWeight : Nat := 0xffffffff

/-- The sum of two weights, cut off at the largest one. -/
def addWeight (m n : Nat) : Nat := min maxWeight (m + n)

/-- A stored type: its kind, and where its payload starts. -/
structure Item where
  kind : Kind
  start : Nat
deriving DecidableEq, Repr, Inhabited

/-- What a type table holds. -/
structure TypeData where
  items : Array Item
  /-- The facts about every type. -/
  flags : Array Flags
  /-- Number of layers of every type, qualifiers not counted, cut off at `maxWeight`. -/
  weights : Array Nat
  /-- The payloads, each behind its length. -/
  extra : Array Word
  /-- The types without a qualifier on top, by kind and payload. -/
  internMap : Std.HashMap (Kind × List Word) TypeId
  /-- The qualified types, by qualifier and base. -/
  qualifiedMap : Std.HashMap (Qualifier × TypeId) TypeId
  /-- Fresh variables are numbered from zero up to this. -/
  freshCount : Nat

/-- A stored type as it is read: its shape with the facts and the weight kept beside it. -/
structure Node where
  shape : Shape TypeId
  flags : Flags
  weight : Nat
deriving DecidableEq, Repr

namespace TypeData

/-- The words of a payload. -/
def payload (d : TypeData) (item : Item) : List Word :=
  (d.extra.extract (item.start + 1) (item.start + 1 + d.extra.getD item.start 0)).toList

/-- The facts kept with a type. -/
def flagsOf (d : TypeData) (id : TypeId) : Flags := d.flags.getD id 0

/-- The weight kept with a type. -/
def weightOf (d : TypeData) (id : TypeId) : Nat := d.weights.getD id 0

/-- The shape that an item stands for. -/
def shapeOf (d : TypeData) (item : Item) : Shape TypeId := .ofPayload item.kind (d.payload item)

/-- A stored type. -/
def node? (d : TypeData) (id : TypeId) : Option Node :=
  d.items[id]?.map fun item => ⟨d.shapeOf item, d.flagsOf id, d.weightOf id⟩

/-- The type that was entered for a shape. -/
def find? (d : TypeData) : Shape TypeId → Option TypeId
  | .qualified q base => d.qualifiedMap[(q, base)]?
  | s => d.internMap[(s.layout.kind, s.layout.payload)]?

/-- Append an item without entering it into a map. -/
def pushItem (d : TypeData) (kind : Kind) (payload : List Word) (flags : Flags) (weight : Nat) :
    TypeId × TypeData :=
  match d with
  | ⟨items, allFlags, weights, extra, internMap, qualifiedMap, freshCount⟩ =>
    let id := items.size
    let start := extra.size
    (id, ⟨items.push ⟨kind, start⟩, allFlags.push flags, weights.push weight,
      extra.push payload.length ++ payload, internMap, qualifiedMap, freshCount⟩)

/-- Append a type without a qualifier on top.  It takes over facts and weight from its
constituents. -/
def pushPlain (d : TypeData) (l : Layout) : TypeData :=
  let flags := Flags.gather l.own (l.children.map d.flagsOf)
  let weight := (l.children.map d.weightOf).foldl addWeight 1
  match d.pushItem l.kind l.payload flags weight with
  | (id, ⟨items, flags, weights, extra, internMap, qualifiedMap, freshCount⟩) =>
    ⟨items, flags, weights, extra, internMap.insert (l.kind, l.payload) id, qualifiedMap, freshCount⟩

/-- Append a qualified type, which weighs what its base does. -/
def pushQualified (d : TypeData) (q : Qualifier) (base : TypeId) : TypeData :=
  let flags := (d.flagsOf base).propagated ||| TypeFact.isQualified.flag ||| TypeFact.hasQualifier.flag
  match d.pushItem .qualified [q.word, base] flags (d.weightOf base) with
  | (id, ⟨items, flags, weights, extra, internMap, qualifiedMap, freshCount⟩) =>
    ⟨items, flags, weights, extra, internMap, qualifiedMap.insert (q, base) id, freshCount⟩

/-- Count a fresh variable. -/
def coverFresh (d : TypeData) (s : Shape TypeId) : TypeData :=
  { d with freshCount := max d.freshCount s.freshBound }

/-- Append a shape. -/
def push (d : TypeData) (s : Shape TypeId) : TypeData :=
  match s with
  | .qualified q base => d.pushQualified q base
  | s => (d.pushPlain s.layout).coverFresh s

end TypeData

/-- A shape as it is stored over the types of a table. -/
def Node.ofShape (d : TypeData) (s : Shape TypeId) : Node where
  shape := s
  flags := Flags.gather s.layout.own (s.layout.children.map d.flagsOf)
  weight :=
    match s with
    | .qualified _ base => d.weightOf base
    | s => (s.layout.children.map d.weightOf).foldl addWeight 1

@[simp] theorem Node.shape_ofShape (d : TypeData) (s : Shape TypeId) : (ofShape d s).shape = s := rfl

/-- What a type table promises, whichever types it holds. -/
structure TypeData.Sound (d : TypeData) : Prop where
  flags_size : d.flags.size = d.items.size
  weights_size : d.weights.size = d.items.size
  /-- Payloads lie within the array of payloads. -/
  payload_le : ∀ {i : TypeId} {item : Item}, d.items[i]? = some item →
    item.start + 1 + d.extra.getD item.start 0 ≤ d.extra.size
  /-- Constituents have smaller numbers. -/
  child_lt : ∀ {i : TypeId} {n : Node}, d.node? i = some n → ∀ c ∈ n.shape.children, c < i
  /-- The facts and the weight kept with a type are what the constituents give. -/
  node_eq : ∀ {i : TypeId} {n : Node}, d.node? i = some n → n = Node.ofShape d n.shape
  /-- The maps find exactly the stored shapes. -/
  find?_iff : ∀ {s : Shape TypeId} {i : TypeId},
    d.find? s = some i ↔ ∃ n, d.node? i = some n ∧ n.shape = s
  /-- Only a qualified type has a qualified constituent. -/
  bare_child : ∀ {i c : TypeId} {n m : Node}, d.node? i = some n →
    n.shape.isQualified = false → c ∈ n.shape.children → d.node? c = some m →
    m.shape.isQualified = false
  /-- Fresh variables with larger numbers are not in use. -/
  fresh_lt : ∀ {i : TypeId} {n : Node}, d.node? i = some n → n.shape.freshBound ≤ d.freshCount

/-- What a type table promises. -/
structure TypeData.Lawful (d : TypeData) : Prop extends d.Sound where
  /-- Primitives sit at their own numbers. -/
  prim_at : ∀ p : Prim, ∃ n, d.node? p.number = some n ∧ n.shape = .prim p

namespace TypeData

variable {d : TypeData} {s : Shape TypeId} {i : TypeId} {n : Node}

/-! ## What appending a shape does to each part -/

theorem items_push (d : TypeData) (s : Shape TypeId) :
    (d.push s).items = d.items.push ⟨s.kind, d.extra.size⟩ := by
  cases s <;> rfl

theorem extra_push (d : TypeData) (s : Shape TypeId) :
    (d.push s).extra = d.extra.push s.layout.payload.length ++ s.layout.payload := by
  cases s <;> rfl

theorem flags_push (d : TypeData) (s : Shape TypeId) :
    (d.push s).flags = d.flags.push (Node.ofShape d s).flags := by
  cases s with
  | qualified q base =>
    -- The facts of its own are written behind those of the base here, and before them by `gather`.
    refine congrArg d.flags.push ?_
    show (d.flagsOf base).propagated ||| _ ||| _ = (_ ||| _) ||| (d.flagsOf base).propagated
    rw [BitVec.or_assoc, BitVec.or_comm]
  | _ => rfl

theorem weights_push (d : TypeData) (s : Shape TypeId) :
    (d.push s).weights = d.weights.push (Node.ofShape d s).weight := by
  cases s <;> rfl

theorem freshCount_push (d : TypeData) (s : Shape TypeId) :
    (d.push s).freshCount = max d.freshCount s.freshBound := by
  cases s with
  | qualified q base => exact (Nat.max_eq_left (Nat.zero_le _)).symm
  | _ => rfl

theorem find?_plain (h : s.isQualified = false) :
    d.find? s = d.internMap[(s.layout.kind, s.layout.payload)]? := by
  cases s with
  | qualified q base => cases h
  | _ => rfl

theorem push_plain (h : s.isQualified = false) : d.push s = (d.pushPlain s.layout).coverFresh s := by
  cases s with
  | qualified q base => cases h
  | _ => rfl

theorem key_eq_iff {s t : Shape TypeId} :
    (s.layout.kind, s.layout.payload) = (t.layout.kind, t.layout.payload) ↔ s = t :=
  ⟨fun h => Shape.layout_injective (by simpa using (Prod.mk.inj h).1) (Prod.mk.inj h).2,
    fun h => h ▸ rfl⟩

/-- The shape that was appended is found, and what is found for other shapes stays. -/
theorem find?_push (d : TypeData) (s t : Shape TypeId) :
    (d.push s).find? t = if s = t then some d.items.size else d.find? t := by
  cases hs : s.isQualified <;> cases ht : t.isQualified
  · rw [find?_plain ht, find?_plain ht, push_plain hs]
    show (d.internMap.insert _ _)[_]? = _
    simp only [Std.HashMap.getElem?_insert, beq_iff_eq, key_eq_iff]
  · have hne : s ≠ t := fun h => by rw [h, ht] at hs; cases hs
    rw [if_neg hne, push_plain hs]
    cases t with
    | qualified q base => rfl
    | _ => cases ht
  · have hne : s ≠ t := fun h => by rw [h, ht] at hs; cases hs
    rw [if_neg hne, find?_plain ht, find?_plain ht]
    cases s with
    | qualified q base => rfl
    | _ => cases hs
  · cases s with
    | qualified q base =>
      cases t with
      | qualified r base' =>
        show (d.qualifiedMap.insert (q, base) d.items.size)[(r, base')]? = _
        simp only [Std.HashMap.getElem?_insert, beq_iff_eq, Prod.mk.injEq, Shape.qualified.injEq]
        rfl
      | _ => cases ht
    | _ => cases hs

/-! ## Reading types after appending a shape -/

theorem payload_eq (d : TypeData) (item : Item) : d.payload item =
    (d.extra.toList.drop (item.start + 1)).take (d.extra.toList[item.start]?.getD 0) := by
  simp [payload, Array.getD_eq_getD_getElem?]

theorem toList_extra_push (d : TypeData) (s : Shape TypeId) : (d.push s).extra.toList =
    d.extra.toList ++ s.layout.payload.length :: s.layout.payload := by
  simp [extra_push]

/-- A payload within the array stays where it is. -/
theorem payload_push_of_le {item : Item}
    (h : item.start + 1 + d.extra.getD item.start 0 ≤ d.extra.size) :
    (d.push s).payload item = d.payload item := by
  rw [Array.getD_eq_getD_getElem?, ← Array.getElem?_toList, ← Array.length_toList] at h
  have hstart : item.start < d.extra.toList.length := by omega
  rw [payload_eq, payload_eq, toList_extra_push, List.getElem?_append_left hstart,
    List.drop_append_of_le_length hstart, List.take_append_of_le_length]
  rw [List.length_drop]
  omega

/-- The payload of the shape that was appended stands at the end of the array. -/
theorem payload_push_new (d : TypeData) (s : Shape TypeId) :
    (d.push s).payload ⟨s.kind, d.extra.size⟩ = s.layout.payload := by
  have hdrop : (d.extra.toList ++ s.layout.payload.length :: s.layout.payload).drop
      (d.extra.size + 1) = s.layout.payload := by
    rw [List.drop_append, ← Array.length_toList, List.drop_of_length_le (Nat.le_succ _)]
    simp
  rw [payload_eq, toList_extra_push, hdrop]
  simp

theorem flagsOf_push_of_lt (hsize : d.flags.size = d.items.size) (h : i < d.items.size) :
    (d.push s).flagsOf i = d.flagsOf i := by
  simp only [flagsOf, flags_push, Array.getD_eq_getD_getElem?, Array.getElem?_push, hsize,
    if_neg (Nat.ne_of_lt h)]

theorem weightOf_push_of_lt (hsize : d.weights.size = d.items.size) (h : i < d.items.size) :
    (d.push s).weightOf i = d.weightOf i := by
  simp only [weightOf, weights_push, Array.getD_eq_getD_getElem?, Array.getElem?_push, hsize,
    if_neg (Nat.ne_of_lt h)]

theorem lt_size_of_node? (h : d.node? i = some n) : i < d.items.size := by
  obtain ⟨item, hitem, -⟩ := Option.map_eq_some_iff.mp h
  exact (Array.getElem?_eq_some_iff.mp hitem).1

theorem flagsOf_of_node? (h : d.node? i = some n) : d.flagsOf i = n.flags := by
  obtain ⟨item, -, rfl⟩ := Option.map_eq_some_iff.mp h
  rfl

theorem weightOf_of_node? (h : d.node? i = some n) : d.weightOf i = n.weight := by
  obtain ⟨item, -, rfl⟩ := Option.map_eq_some_iff.mp h
  rfl

theorem exists_node? (h : i < d.items.size) : ∃ n, d.node? i = some n :=
  ⟨_, congrArg (Option.map _) (Array.getElem?_eq_getElem h)⟩

theorem node?_eq_none (h : d.items.size ≤ i) : d.node? i = none := by
  rw [node?, Array.getElem?_eq_none h, Option.map_none]

theorem flagsOf_push_size (hsize : d.flags.size = d.items.size) :
    (d.push s).flagsOf d.items.size = (Node.ofShape d s).flags := by
  simp only [flagsOf, flags_push, Array.getD_eq_getD_getElem?, ← hsize, Array.getElem?_push_size,
    Option.getD_some]

theorem weightOf_push_size (hsize : d.weights.size = d.items.size) :
    (d.push s).weightOf d.items.size = (Node.ofShape d s).weight := by
  simp only [weightOf, weights_push, Array.getD_eq_getD_getElem?, ← hsize,
    Array.getElem?_push_size, Option.getD_some]

/-- Appending a shape adds one node and keeps all others. -/
theorem Sound.node?_push (h : d.Sound) (s : Shape TypeId) (i : TypeId) :
    (d.push s).node? i = if i = d.items.size then some (Node.ofShape d s) else d.node? i := by
  rw [node?, items_push, Array.getElem?_push]
  split
  · subst i
    simp only [Option.map_some, shapeOf, payload_push_new, Shape.ofPayload_layout,
      flagsOf_push_size h.flags_size, weightOf_push_size h.weights_size]
    rfl
  · rw [node?]
    cases hitem : d.items[i]? with
    | none => rfl
    | some item =>
      have hlt := (Array.getElem?_eq_some_iff.mp hitem).1
      simp only [Option.map_some, shapeOf, payload_push_of_le (h.payload_le hitem),
        flagsOf_push_of_lt h.flags_size hlt, weightOf_push_of_lt h.weights_size hlt]

/-- What a shape takes over from its constituents stays when the table grows. -/
theorem Sound.ofShape_push (h : d.Sound) (hlt : ∀ c ∈ s.children, c < d.items.size)
    (t : Shape TypeId) : Node.ofShape (d.push t) s = Node.ofShape d s := by
  have hflags : s.children.map (d.push t).flagsOf = s.children.map d.flagsOf :=
    List.map_congr_left fun c hc => flagsOf_push_of_lt h.flags_size (hlt c hc)
  have hweights : s.children.map (d.push t).weightOf = s.children.map d.weightOf :=
    List.map_congr_left fun c hc => weightOf_push_of_lt h.weights_size (hlt c hc)
  cases s with
  | qualified q base =>
    have hbase : (d.push t).weightOf base = d.weightOf base :=
      weightOf_push_of_lt h.weights_size (hlt base List.mem_cons_self)
    simp only [Node.ofShape, Shape.children_layout, hflags, hbase]
  | _ => simp only [Node.ofShape, Shape.children_layout, hflags, hweights]

/-- A node after a shape was appended is that of the shape, or was there before. -/
theorem Sound.node?_push_cases (h : d.Sound) (hn : (d.push s).node? i = some n) :
    (i = d.items.size ∧ n = Node.ofShape d s) ∨ (i < d.items.size ∧ d.node? i = some n) := by
  rw [h.node?_push] at hn
  split at hn
  · next hi => exact .inl ⟨hi, (Option.some.inj hn).symm⟩
  · exact .inr ⟨lt_size_of_node? hn, hn⟩

theorem Sound.node?_push_size (h : d.Sound) (s : Shape TypeId) :
    (d.push s).node? d.items.size = some (Node.ofShape d s) := by
  rw [h.node?_push, if_pos rfl]

theorem Sound.node?_push_of_node? (h : d.Sound) (hn : d.node? i = some n) :
    (d.push s).node? i = some n := by
  rw [h.node?_push, if_neg (Nat.ne_of_lt (lt_size_of_node? hn)), hn]

/-- The constituents of a stored type are stored. -/
theorem Sound.child_lt_size (h : d.Sound) (hn : d.node? i = some n) :
    ∀ c ∈ n.shape.children, c < d.items.size :=
  fun c hc => Nat.lt_trans (h.child_lt hn c hc) (lt_size_of_node? hn)

/-- The payloads stay within their array, which has become longer by the new one. -/
theorem Sound.payload_le_push (h : d.Sound) {item : Item}
    (hitem : (d.push s).items[i]? = some item) :
    item.start + 1 + (d.push s).extra.getD item.start 0 ≤ (d.push s).extra.size := by
  rw [items_push, Array.getElem?_push] at hitem
  rw [Array.getD_eq_getD_getElem?, ← Array.getElem?_toList, ← Array.length_toList,
    toList_extra_push, List.length_append, List.length_cons]
  split at hitem
  · -- the new item starts where the array ended
    obtain rfl := Option.some.inj hitem
    simp only [← Array.length_toList, List.getElem?_append_right (Nat.le_refl _), Nat.sub_self,
      List.getElem?_cons_zero, Option.getD_some]
    omega
  · have hle := h.payload_le hitem
    rw [Array.getD_eq_getD_getElem?, ← Array.getElem?_toList, ← Array.length_toList] at hle
    rw [List.getElem?_append_left (by omega)]
    omega

/-- After a new shape was appended, the maps find it and what they found before. -/
theorem Sound.find?_push_iff (h : d.Sound) (isNew : d.find? s = none) {t : Shape TypeId} :
    (d.push s).find? t = some i ↔ ∃ n, (d.push s).node? i = some n ∧ n.shape = t := by
  rw [find?_push]
  split
  · next hst =>
    subst hst
    constructor
    · rintro hi
      obtain rfl := Option.some.inj hi
      exact ⟨Node.ofShape d s, h.node?_push_size s, rfl⟩
    · rintro ⟨n, hn, hshape⟩
      rcases h.node?_push_cases hn with ⟨rfl, -⟩ | ⟨-, hn⟩
      · rfl
      · -- the shape was not there before
        rw [h.find?_iff.mpr ⟨n, hn, hshape⟩] at isNew
        cases isNew
  · next hst =>
    rw [h.find?_iff]
    constructor
    · rintro ⟨n, hn, hshape⟩
      exact ⟨n, h.node?_push_of_node? hn, hshape⟩
    · rintro ⟨n, hn, hshape⟩
      rcases h.node?_push_cases hn with ⟨-, rfl⟩ | ⟨-, hn⟩
      · exact absurd hshape hst
      · exact ⟨n, hn, hshape⟩

/-- Appending a new shape over stored constituents without qualifiers keeps the promises. -/
theorem Sound.push (h : d.Sound) (isNew : d.find? s = none)
    (below : ∀ c ∈ s.children, c < d.items.size)
    (bareParts : ∀ {c : TypeId} {m : Node}, s.isQualified = false → c ∈ s.children →
      d.node? c = some m → m.shape.isQualified = false) : (d.push s).Sound where
  flags_size := by rw [flags_push, items_push, Array.size_push, Array.size_push, h.flags_size]
  weights_size := by
    rw [weights_push, items_push, Array.size_push, Array.size_push, h.weights_size]
  payload_le := h.payload_le_push
  child_lt := by
    intro i n hn c hc
    rcases h.node?_push_cases hn with ⟨rfl, rfl⟩ | ⟨-, hn⟩
    · exact below c hc
    · exact h.child_lt hn c hc
  node_eq := by
    intro i n hn
    rcases h.node?_push_cases hn with ⟨-, rfl⟩ | ⟨-, hn⟩
    · exact (h.ofShape_push below s).symm
    · rw [h.ofShape_push (h.child_lt_size hn)]
      exact h.node_eq hn
  find?_iff := h.find?_push_iff isNew
  bare_child := by
    intro i c n m hn hq hc hm
    have hold : c < d.items.size → d.node? c = some m := fun hlt => by
      rcases h.node?_push_cases hm with ⟨rfl, -⟩ | ⟨-, hm⟩
      · exact absurd hlt (Nat.lt_irrefl _)
      · exact hm
    rcases h.node?_push_cases hn with ⟨-, rfl⟩ | ⟨-, hn⟩
    · exact bareParts hq hc (hold (below c hc))
    · exact h.bare_child hn hq hc (hold (h.child_lt_size hn c hc))
  fresh_lt := by
    intro i n hn
    rw [freshCount_push]
    rcases h.node?_push_cases hn with ⟨-, rfl⟩ | ⟨-, hn⟩
    · exact Nat.le_max_right _ _
    · exact Nat.le_trans (h.fresh_lt hn) (Nat.le_max_left _ _)

/-- The primitives stay at their own numbers. -/
theorem Lawful.push (h : d.Lawful) (isNew : d.find? s = none)
    (below : ∀ c ∈ s.children, c < d.items.size)
    (bareParts : ∀ {c : TypeId} {m : Node}, s.isQualified = false → c ∈ s.children →
      d.node? c = some m → m.shape.isQualified = false) : (d.push s).Lawful where
  toSound := h.toSound.push isNew below bareParts
  prim_at := by
    intro p
    obtain ⟨n, hn, hshape⟩ := h.prim_at p
    exact ⟨n, h.toSound.node?_push_of_node? hn, hshape⟩

end TypeData

/-- Types by number, each shape once. -/
structure TypeTable extends TypeData where
  lawful : toTypeData.Lawful

namespace TypeTable

/-- Number of types in the table. -/
def size (t : TypeTable) : Nat := t.items.size

/-- The shape of a type; numbers beyond the table are read as the error type. -/
def shape (t : TypeTable) (id : TypeId) : Shape TypeId :=
  match t.node? id with
  | some n => n.shape
  | none => .prim .error

/-- The constituents of a type. -/
def children (t : TypeTable) (id : TypeId) : List TypeId := (t.shape id).children

/-- A constituent has a smaller number than the type it is part of. -/
theorem lt_of_mem_children {t : TypeTable} {id c : TypeId} (h : c ∈ t.children id) : c < id := by
  unfold children shape at h
  split at h
  · next n hn => exact t.lawful.child_lt hn c h
  · simp [Shape.children] at h

/-- The type under all qualifiers. -/
def bare (t : TypeTable) (id : TypeId) : TypeId :=
  match h : t.shape id with
  | .qualified _ base =>
    have : base < id := lt_of_mem_children (t := t) (by simp [children, h, Shape.children])
    t.bare base
  | _ => id
termination_by id

theorem bare_le (t : TypeTable) (id : TypeId) : t.bare id ≤ id := by
  induction id using Nat.strongRecOn with
  | ind id ih =>
    unfold bare
    split
    · next q base h =>
      have hlt : base < id := lt_of_mem_children (t := t) (by simp [children, h, Shape.children])
      exact Nat.le_of_lt (Nat.lt_of_le_of_lt (ih base hlt) hlt)
    · exact Nat.le_refl _

/-- No qualifier is left on top. -/
theorem isQualified_shape_bare (t : TypeTable) (id : TypeId) :
    (t.shape (t.bare id)).isQualified = false := by
  induction id using Nat.strongRecOn with
  | ind id ih =>
    unfold bare
    split
    · next q base h =>
      exact ih base (lt_of_mem_children (t := t) (by simp [children, h, Shape.children]))
    · next h =>
      cases hs : t.shape id <;> simp_all [Shape.isQualified]

/-- A shape as it is stored: the constituents lose their qualifiers, unless the shape is itself a
qualifier. -/
def key (t : TypeTable) (s : Shape TypeId) : Shape TypeId :=
  if s.isQualified then s else s.map t.bare

theorem isQualified_key (t : TypeTable) (s : Shape TypeId) :
    (t.key s).isQualified = s.isQualified := by
  cases s <;> simp [key, Shape.isQualified, Shape.map]

/-- The constituents of a stored shape carry no qualifier. -/
theorem bare_of_mem_key {t : TypeTable} {s : Shape TypeId} {c : TypeId} {m : Node}
    (hs : (t.key s).isQualified = false) (hc : c ∈ (t.key s).children)
    (hm : t.node? c = some m) : m.shape.isQualified = false := by
  rw [isQualified_key] at hs
  simp only [key, hs, Bool.false_eq_true, if_false, Shape.children_map, List.mem_map] at hc
  obtain ⟨x, -, rfl⟩ := hc
  have := t.isQualified_shape_bare x
  simpa [shape, hm] using this

/-- The type of a shape, which is entered if it is new.  A shape over numbers beyond the table is
no type and gives the error type. -/
def intern (t : TypeTable) (s : Shape TypeId) : TypeId × TypeTable :=
  match h : t.find? (t.key s) with
  | some id => (id, t)
  | none =>
    if below : ∀ c ∈ (t.key s).children, c < t.items.size then
      (t.items.size, ⟨t.toTypeData.push (t.key s), t.lawful.push h below bare_of_mem_key⟩)
    else (TypeId.error, t)

/-! ## A new table -/

/-- A table without types. -/
def emptyData : TypeData := ⟨#[], #[], #[], #[], {}, {}, 0⟩

/-- The first primitives, entered one after the other. -/
def primPrefix (k : Nat) : TypeData :=
  (Prim.all.take k).foldl (fun d p => d.push (.prim p)) emptyData

/-- A table of the primitives and nothing else.  What it holds is told by `primData_node?`. -/
@[irreducible] def primData : TypeData := primPrefix Prim.count

theorem sound_emptyData : emptyData.Sound where
  flags_size := rfl
  weights_size := rfl
  payload_le := by intro i item h; simp [emptyData] at h
  child_lt := by intro i n h; simp [emptyData, TypeData.node?] at h
  node_eq := by intro i n h; simp [emptyData, TypeData.node?] at h
  find?_iff := by
    intro s i
    have hnone : emptyData.find? s = none := by
      cases s <;> simp [emptyData, TypeData.find?]
    rw [hnone]
    simp [emptyData, TypeData.node?]
  bare_child := by intro i c n m h; simp [emptyData, TypeData.node?] at h
  fresh_lt := by intro i n h; simp [emptyData, TypeData.node?] at h

/-- Entering a prefix of the primitives gives a sound table, with each at its own number. -/
theorem primPrefix_holds {k : Nat} (hk : k ≤ Prim.count) :
    (primPrefix k).Sound ∧ (primPrefix k).items.size = k ∧ ∀ i n, (primPrefix k).node? i = some n ↔
      i < k ∧ ∃ p : Prim, p.number = i ∧ n = Node.ofShape emptyData (.prim p) := by
  induction k with
  | zero => exact ⟨sound_emptyData, rfl, fun i n => by simp [primPrefix, emptyData, TypeData.node?]⟩
  | succ k ih =>
    obtain ⟨hsound, hsize, hnode⟩ := ih (Nat.le_of_succ_le hk)
    obtain ⟨p, hp⟩ : ∃ p : Prim, p.number = k := ⟨_, Prim.number_get ⟨k, hk⟩⟩
    have hstep : primPrefix (k + 1) = (primPrefix k).push (.prim p) := by
      rw [primPrefix, List.take_add_one, List.foldl_append, ← hp, Prim.all_getElem?]
      rfl
    have hnew : (primPrefix k).find? (.prim p) = none := by
      rw [Option.eq_none_iff_forall_ne_some]
      intro i hi
      obtain ⟨n, hn, hshape⟩ := hsound.find?_iff.mp hi
      obtain ⟨hlt, q, hq, rfl⟩ := (hnode i n).mp hn
      obtain rfl := Shape.prim.inj hshape
      exact Nat.ne_of_lt hlt (hq.symm.trans hp)
    have hparts : ∀ c ∈ (Shape.prim p : Shape TypeId).children, c < (primPrefix k).items.size := by
      simp [Shape.children]
    rw [hstep]
    refine ⟨hsound.push hnew hparts (by simp [Shape.children]), ?_, fun i n => ?_⟩
    · rw [TypeData.items_push, Array.size_push, hsize]
    · rw [hsound.node?_push, hsize]
      split
      · next hi =>
        subst hi
        constructor
        · intro hn
          exact ⟨Nat.lt_succ_self _, p, hp, (Option.some.inj hn).symm⟩
        · rintro ⟨-, q, hq, rfl⟩
          obtain rfl := Prim.number_injective (hp.trans hq.symm)
          rfl
      · next hi =>
        rw [hnode]
        exact and_congr_left fun _ =>
          ⟨Nat.lt_succ_of_lt, fun hlt => Nat.lt_of_le_of_ne (Nat.le_of_lt_succ hlt) hi⟩

theorem primData_node? {i : TypeId} {n : Node} : primData.node? i = some n ↔
    ∃ p : Prim, p.number = i ∧ n = Node.ofShape emptyData (.prim p) := by
  rw [primData, (primPrefix_holds (Nat.le_refl _)).2.2]
  exact ⟨And.right, fun ⟨p, hp, hn⟩ => ⟨hp ▸ p.number_lt_count, p, hp, hn⟩⟩

theorem lawful_primData : primData.Lawful where
  toSound := by
    rw [primData]
    exact (primPrefix_holds (Nat.le_refl _)).1
  prim_at := fun p => ⟨_, primData_node?.mpr ⟨p, rfl, rfl⟩, rfl⟩

/-- A new table: the primitives and nothing else. -/
def new : TypeTable := ⟨primData, lawful_primData⟩

instance : Inhabited TypeTable := ⟨new⟩

end TypeTable

end ConstraintTyping
