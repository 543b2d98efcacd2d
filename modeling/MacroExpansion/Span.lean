/-!
# Spans

A span is a pair of byte offsets into the text that a tree was read from.
-/

namespace MacroExpansion

/-- A range of bytes, from `start` up to `stop`. -/
structure Span where
  start : UInt64
  stop : UInt64
  deriving DecidableEq, Repr, Inhabited

namespace Span

/-- The number of bytes covered: none when the ends are in the wrong order. -/
def length (s : Span) : Nat := s.stop.toNat - s.start.toNat

def isEmpty (s : Span) : Bool := s.length == 0

/-- A span is shown as its two ends. -/
def render (s : Span) : String := s!"{s.start.toNat}..{s.stop.toNat}"

end Span

end MacroExpansion
