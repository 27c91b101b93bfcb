import ConstraintTyping.Types.Vars
import ConstraintTyping.Diagnostic.Color

/-!
# Printing types

A type prints as a list of pieces, each a text or a constituent.  Printing one type flattens the
pieces.  Printing two types side by side walks both lists together, so that shared structure and
differences can be told apart by color.

Variables without a name are called `'a`, `'b`, ... in the order in which they are met, and never
like a named variable of the types at hand.
-/

namespace ConstraintTyping

/-- The `n`-th variable name: the letters, then the letters with a one, and so on. -/
def letterName (n : Nat) : String :=
  let letter := (Char.ofNat ('a'.toNat + n % 26)).toString
  if n < 26 then letter else letter ++ toString (n / 26)

/-- The names handed out to variables that have none. -/
structure VarNames where
  assigned : List (TypeId × String) := []
  /-- Names that are already taken. -/
  reserved : List String := []
  /-- Number of the next candidate name. -/
  next : Nat := 0
deriving Repr, Inhabited

namespace VarNames

/-- No names yet, and none that a named variable of `types` has. -/
def forTypes (st : Store) (types : List TypeId) : VarNames :=
  let named (v : TypeId) : Option String := match st.shape v with
    | .var (.named name) => some name
    | _ => none
  { reserved := types.flatMap fun ty => (st.collectVars ty).filterMap named }

/-- Number of the first free candidate.  Candidates differ from each other, so one of the first
`reserved.length + 1` is free. -/
def firstFree (names : VarNames) : Nat :=
  let candidates := List.range' names.next (names.reserved.length + 1)
  (candidates.find? fun n => !names.reserved.contains (letterName n)).getD names.next

/-- The name of a variable, the same on every request. -/
def nameFor (var : TypeId) : StateM VarNames String := fun names =>
  match names.assigned.lookup var with
  | some name => (name, names)
  | none =>
    let n := names.firstFree
    (letterName n,
      { names with assigned := (var, letterName n) :: names.assigned, next := n + 1 })

end VarNames

/-- A part of a printed type: a text, or a constituent to be printed. -/
inductive Piece (α : Type) where
  | text (s : String)
  | part (a : α)
deriving DecidableEq, Repr

namespace Piece

variable {α : Type}

/-- Constituents separated by commas. -/
def commaList : List α → List (Piece α)
  | [] => []
  | [a] => [.part a]
  | a :: b :: rest => .part a :: .text ", " :: commaList (b :: rest)

/-- A constituent in argument position, in parentheses where it would not stand alone. -/
def atom (needsParens : α → Bool) (a : α) : List (Piece α) :=
  if needsParens a then [.text "(", .part a, .text ")"] else [.part a]

/-- A name applied to arguments. -/
def application (needsParens : α → Bool) (name : Name) (args : List α) : List (Piece α) :=
  .text name :: args.flatMap fun a => .text " " :: atom needsParens a

/-- The pieces of a shape; `varText` is what a variable prints as. -/
def ofShape (needsParens : α → Bool) (varText : String) : Shape α → List (Piece α)
  | .prim p => [.text p.name]
  | .pointer target => .text "*" :: atom needsParens target
  | .array elem length =>
    let close := match length with
      | some n => s!"; {n}]"
      | none => "]"
    [.text "[", .part elem, .text close]
  | .tuple items => .text "(" :: commaList items ++ [.text ")"]
  | .function sig =>
    let dots := if sig.params.isEmpty then "..." else ", ..."
    .text (if sig.isMeta then "meta (" else "(")
      :: commaList sig.params
      ++ (if sig.isVariadic then [.text dots] else [])
      ++ [.text ") -> ", .part sig.ret]
      ++ (if sig.givens.isEmpty then [] else .text " given " :: commaList sig.givens)
  | .var _ => [.text varText]
  | .product name args | .sum name args => application needsParens name args
  | .trait name subject args => application needsParens name (subject :: args)
  | .qualified q base => [.text (q.keyword ++ " "), .part base]

theorem mem_of_mem_commaList {a : α} : ∀ {items : List α}, .part a ∈ commaList items → a ∈ items
  | [], h => by simp [commaList] at h
  | [b], h => by simpa [commaList] using h
  | b :: c :: rest, h => by
    simp only [commaList, List.mem_cons, Piece.part.injEq, reduceCtorEq, false_or] at h
    rcases h with rfl | h
    · exact List.mem_cons_self
    · exact List.mem_cons_of_mem _ (mem_of_mem_commaList h)

theorem mem_of_mem_atom {f : α → Bool} {a b : α} (h : .part a ∈ atom f b) : a = b := by
  unfold atom at h
  split at h <;> simpa using h

theorem mem_of_mem_application {f : α → Bool} {a : α} {name : Name} {args : List α}
    (h : .part a ∈ application f name args) : a ∈ args := by
  simp only [application, List.mem_cons, reduceCtorEq, List.mem_flatMap, false_or] at h
  obtain ⟨b, hb, h⟩ := h
  exact mem_of_mem_atom h ▸ hb

/-- Only constituents of a shape appear among its pieces. -/
theorem mem_children_of_mem_ofShape {f : α → Bool} {varText : String} {s : Shape α} {a : α}
    (h : .part a ∈ ofShape f varText s) : a ∈ s.children := by
  cases s with
  | prim p => simp [ofShape] at h
  | pointer target =>
    simp only [ofShape, List.mem_cons, reduceCtorEq, false_or] at h
    simp [Shape.children, mem_of_mem_atom h]
  | array elem length => simpa [ofShape, Shape.children] using h
  | tuple items =>
    simp only [ofShape, List.cons_append, List.mem_cons, reduceCtorEq, false_or, List.mem_append,
      List.not_mem_nil, or_false] at h
    exact mem_of_mem_commaList h
  | function sig =>
    simp only [ofShape, List.cons_append, List.append_assoc, List.mem_cons, reduceCtorEq, false_or,
      List.mem_append, Piece.part.injEq, List.nil_append] at h
    simp only [Shape.children, Signature.children, List.cons_append, List.mem_cons,
      List.mem_append]
    rcases h with h | h | h | h
    · exact Or.inr (Or.inl (mem_of_mem_commaList h))
    · split at h <;> simp at h
    · exact Or.inl h
    · split at h
      · simp at h
      · simp only [List.mem_cons, reduceCtorEq, false_or] at h
        exact Or.inr (Or.inr (mem_of_mem_commaList h))
  | var ident => simp [ofShape] at h
  | product name args => exact mem_of_mem_application h
  | sum name args => exact mem_of_mem_application h
  | trait name subject args => exact mem_of_mem_application h
  | qualified q base => simpa [ofShape, Shape.children] using h

/-- Whether two pieces belong to the same head: equal texts, or two constituents. -/
def agrees : Piece α → Piece α → Bool
  | .text x, .text y => x == y
  | .part _, .part _ => true
  | _, _ => false

end Piece

namespace Store

/-- Whether a type needs parentheses in argument position. -/
def needsParens (st : Store) (ty : TypeId) : Bool :=
  match st.shape ty with
  | .function _ | .qualified _ _ => true
  | .product _ args | .sum _ args => !args.isEmpty
  | .trait _ _ _ => true
  | _ => false

/-- What a variable prints as; nothing for other types. -/
def varText (st : Store) (ty : TypeId) : StateM VarNames String :=
  match st.shape ty with
  | .var (.named name) => pure ("'" ++ name)
  | .var (.fresh _) => return "'" ++ (← VarNames.nameFor ty)
  | _ => pure ""

/-- The pieces of a type whose variable text is known. -/
def pieces (st : Store) (varText : String) (ty : TypeId) : List (Piece TypeId) :=
  Piece.ofShape st.needsParens varText (st.shape ty)

theorem lt_of_mem_pieces {st : Store} {varText : String} {ty c : TypeId}
    (h : .part c ∈ st.pieces varText ty) : c < ty :=
  lt_of_mem_children (Piece.mem_children_of_mem_ofShape h)

/-- The text of a type. -/
def printWith (st : Store) (ty : TypeId) : StateM VarNames String := do
  let text ← st.varText ty
  let parts ← (st.pieces text ty).attach.mapM fun
    | ⟨.text s, _⟩ => pure s
    | ⟨.part c, h⟩ =>
      have : c < ty := lt_of_mem_pieces h
      st.printWith c
  return String.join parts
termination_by ty

/-- The texts of two types side by side.  With color, what they share is dim and the innermost
places in which they differ are red. -/
def printPairWith (st : Store) (color : Bool) (a b : TypeId) : StateM VarNames (String × String) := do
  let whole (paint : String) : StateM VarNames (String × String) := do
    let x ← st.printWith a
    let y ← st.printWith b
    return (Color.paint color paint x, Color.paint color paint y)
  if a = b then
    whole Color.shared
  else
    let textA ← st.varText a
    let textB ← st.varText b
    let piecesA := st.pieces textA a
    let piecesB := st.pieces textB b
    if piecesA.length = piecesB.length
        && (piecesA.zip piecesB).all (fun (p, q) => p.agrees q) then
      let parts ← (piecesA.zip piecesB).attach.mapM fun
        | ⟨(.part c, .part d), h⟩ =>
          have : c < a := lt_of_mem_pieces (List.of_mem_zip h).1
          st.printPairWith color c d
        | ⟨(.text s, _), _⟩ =>
          let tinted := if s.isEmpty then s else Color.paint color Color.shared s
          pure (tinted, tinted)
        | ⟨(.part _, .text _), _⟩ => pure ("", "")
      return (String.join (parts.map (·.1)), String.join (parts.map (·.2)))
    else
      whole Color.differs
termination_by a

/-- The text of a type on its own. -/
def print (st : Store) (ty : TypeId) : String :=
  ((st.printWith ty).run (VarNames.forTypes st [ty])).1

end Store

end ConstraintTyping
