import LogQuery.Text

/-! Stretches of a query between two byte offsets. -/
namespace LogQuery

structure Span where
  start : Nat
  stop : Nat
  deriving DecidableEq, Repr

namespace Span

/-- Equal bounds count as contained. -/
def contains (a b : Span) : Bool := a.start ≤ b.start && b.stop ≤ a.stop

/-- The part of the query that a span covers. Spans that do not fit it cover nothing. -/
def text (s : Span) (query : Text) : Text := (query.slice? s.start s.stop).getD []

/-- The part inside the quotes. -/
def unquoted (s : Span) (query : Text) : Text :=
  if s.stop < s.start + 2 then [] else (query.slice? (s.start + 1) (s.stop - 1)).getD []

end Span
end LogQuery
