import ConstraintTyping.Source.Span

/-!
# Lines and columns

Offsets are bytes, columns are characters.  A text is read as the list of its characters, each of
which takes one to four bytes; an offset that falls inside a character has no place in that list.
Line `n` (counted from one) starts at offset zero or right after the `n - 1`-st newline.
-/

namespace ConstraintTyping

/-- Split a text at a byte offset; there is no split inside a character or past the end. -/
def splitAtByte? : List Char → Nat → Option (List Char × List Char)
  | cs, 0 => some ([], cs)
  | [], _ + 1 => none
  | c :: cs, n + 1 =>
    if c.utf8Size ≤ n + 1 then
      (splitAtByte? cs (n + 1 - c.utf8Size)).map fun (before, after) => (c :: before, after)
    else none

/-- The characters between two byte offsets, both of which must be character boundaries in order. -/
def sliceBytes? (cs : List Char) (start stop : Nat) : Option (List Char) :=
  if start ≤ stop then do
    let (_, after) ← splitAtByte? cs start
    let (middle, _) ← splitAtByte? after (stop - start)
    return middle
  else none

/-- Number of bytes a list of characters takes. -/
def byteLength (cs : List Char) : Nat := cs.foldl (fun n c => n + c.utf8Size) 0

/-- Offsets right after each newline of `cs`, where `cs` starts at offset `offset`. -/
def lineStartsAfter : List Char → Nat → List Nat
  | [], _ => []
  | c :: cs, offset =>
    let next := offset + c.utf8Size
    if c = '\n' then next :: lineStartsAfter cs next else lineStartsAfter cs next

/-- How the search for a number among increasing ones ends. -/
inductive SearchResult where
  /-- The number is at this position. -/
  | found (index : Nat)
  /-- The number is not there, and would have its place at this position. -/
  | absent (index : Nat)
deriving DecidableEq, Repr

/-- Search the numbers from position `low` up to position `high` by halves. -/
def searchBetween (xs : List Nat) (x low high : Nat) : SearchResult :=
  if low < high then
    let middle := low + (high - low) / 2
    let y := xs.getD middle 0
    if y = x then .found middle
    else if y < x then searchBetween xs x (middle + 1) high
    else searchBetween xs x low middle
  else .absent low
termination_by high - low

/-- Search increasing numbers. -/
def binarySearch (xs : List Nat) (x : Nat) : SearchResult := searchBetween xs x 0 xs.length

/-- A source text together with the offsets at which its lines start. -/
structure LineTable where
  chars : List Char
  starts : List Nat
deriving Repr, Inhabited

namespace LineTable

/-- The line table of a text. -/
def ofText (text : String) : LineTable :=
  let chars := text.toList
  { chars, starts := 0 :: lineStartsAfter chars 0 }

/-- Number of lines; a text always has at least one. -/
def lineCount (t : LineTable) : Nat := t.starts.length

/-- The line, counted from one, on which a byte offset falls; past the end this is the last line. -/
def lineAt (t : LineTable) (offset : Nat) : Nat :=
  let index :=
    match binarySearch t.starts offset with
    | .found exact => exact
    | .absent insert => insert - 1
  index + 1

/-- Line and column of a byte offset, both counted from one.  Offsets past the end are read as the
end, and an offset inside a character is read as the start of its line. -/
def lineColumn (t : LineTable) (offset : Nat) : Nat × Nat :=
  let line := t.lineAt offset
  let start := t.starts.getD (line - 1) 0
  let stop := max (min offset (byteLength t.chars)) start
  (line, ((sliceBytes? t.chars start stop).map List.length).getD 0 + 1)

/-- Drop every carriage return at the end of a line. -/
def dropReturns (cs : List Char) : List Char :=
  (cs.reverse.dropWhile (· = '\r')).reverse

/-- The text of a line, counted from one, without its line ending. -/
def lineText? (t : LineTable) (line : Nat) : Option String :=
  match line with
  | 0 => none
  | i + 1 => do
    let start ← t.starts[i]?
    let stop := match t.starts[i + 1]? with
      | some next => next - 1
      | none => byteLength t.chars
    let cs ← sliceBytes? t.chars start stop
    return String.ofList (dropReturns cs)

end LineTable

/-- Line and column at which a span starts. -/
def Span.startLineColumn (text : String) (span : Span) : Nat × Nat :=
  (LineTable.ofText text).lineColumn span.start

end ConstraintTyping
