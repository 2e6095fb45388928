import Monkey.Text.Decimal

/-!
Places in a source text. Offsets count characters, and a span is half open: it holds the
characters from `start` up to, not including, `stop`.
-/

namespace Monkey

/-- The characters of the source from `start` up to, not including, `stop`. -/
structure Span where
  start : Nat
  stop : Nat
  deriving DecidableEq, Repr, Inhabited

namespace Span

/-- The span of the one character at a position. -/
def single (position : Nat) : Span := ⟨position, position + 1⟩

/-- The span without characters at a position. -/
def empty (position : Nat) : Span := ⟨position, position⟩

/-- The signed distance from start to end. -/
def width (s : Span) : Int := s.stop - s.start

def text (s : Span) : String := Text.Decimal.text s.start ++ ".." ++ Text.Decimal.text s.stop

end Span

/-- A value with the span of the source that it speaks of. -/
structure Located (α : Type) where
  value : α
  span : Span
  deriving DecidableEq, Repr

end Monkey
