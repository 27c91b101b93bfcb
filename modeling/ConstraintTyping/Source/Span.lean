/-!
# Spans

A span is a pair of byte offsets into a source text.  Every tree node, every constraint and every
diagnostic carries one.  The pair is kept as it was given: a reversed pair is a legal span that
contains no offset.
-/

namespace ConstraintTyping

/-- Byte offsets `start` up to, and not including, `stop`. -/
structure Span where
  start : Nat
  stop : Nat
deriving DecidableEq, Hashable, Repr, Inhabited

/-- Why a pair of offsets is no span: offsets are 32-bit words, and the start is judged first. -/
inductive SpanError where
  | startTooLarge (offset : Nat)
  | stopTooLarge (offset : Nat)
deriving DecidableEq, Repr

/-- The wording of a rejected pair of offsets. -/
def SpanError.message : SpanError → String
  | .startTooLarge offset => s!"span start {offset} exceeds u32::MAX"
  | .stopTooLarge offset => s!"span end {offset} exceeds u32::MAX"

namespace Span

/-- The largest offset a span can hold. -/
def maxOffset : Nat := 0xffffffff

/-- The span of a node that has no place in the text. -/
def none : Span := ⟨0, 0⟩

/-- The span between two offsets, when both are 32-bit words. -/
def ofOffsets (start stop : Nat) : Except SpanError Span :=
  if start > maxOffset then .error (.startTooLarge start)
  else if stop > maxOffset then .error (.stopTooLarge stop)
  else .ok ⟨start, stop⟩

/-- Number of bytes covered. -/
def length (s : Span) : Nat := s.stop - s.start

/-- Whether the two ends coincide. -/
def isEmpty (s : Span) : Bool := s.start == s.stop

/-- Whether `offset` lies inside the span. -/
def contains (s : Span) (offset : Nat) : Bool := s.start ≤ offset && offset < s.stop

/-- The smallest span that covers both. -/
def merge (s t : Span) : Span := ⟨min s.start t.start, max s.stop t.stop⟩

/-- The two offsets, separated by dots. -/
def text (s : Span) : String := s!"{s.start}..{s.stop}"

end Span

end ConstraintTyping
