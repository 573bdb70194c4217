/-!
# Spans

A *span* is the range of bytes that something takes in a text, and a value read
from a text is kept with its span (`Located`), so a complaint about it can point
at the place where it was written.
-/

namespace ConnectorQuery

/-- A range of bytes: from `start` up to, not including, `stop`. -/
structure Span where
  start : Nat
  stop : Nat
  deriving DecidableEq, Repr, Inhabited

namespace Span

/-- The span from the earlier start to the later end. -/
def merge (s t : Span) : Span :=
  ⟨min s.start t.start, max s.stop t.stop⟩

/-- The span moved `n` bytes to the right. -/
def shift (s : Span) (n : Nat) : Span :=
  ⟨s.start + n, s.stop + n⟩

end Span

/-- A value with the place where it was written. -/
structure Located (α : Type) where
  val : α
  span : Span
  deriving DecidableEq, Repr

end ConnectorQuery
