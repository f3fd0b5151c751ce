/-!
# Spans

A span is a position in a source file with a length. Lines and columns count
from one, columns in bytes; the span of something without a place is zero.
-/

namespace Memberwise

/-- A stretch of one source line. -/
structure Span where
  line : Nat := 0
  col : Nat := 0
  len : Nat := 0
deriving DecidableEq, Repr, Inhabited

namespace Span

/-- The empty span at a position. -/
def point (line col : Nat) : Span := ⟨line, col, 0⟩

def isEmpty (s : Span) : Bool := s.len == 0

/-- The span of `len` bytes that starts at a column of the text that starts where `s` starts. -/
def shifted (s : Span) (column len : Nat) : Span := ⟨s.line, s.col + (column - 1), len⟩

/-- The position as line and column. -/
def text (s : Span) : String := s!"{s.line}:{s.col}"

end Span

end Memberwise
