import DocComment.Token.Basic

/-!
# Spans

A span is a stretch of places in a list of tokens.  It ties an entry of a
comment to the piece of the source that the entry was read from.
-/

namespace DocComment

/-- The places from `start` on, `length` of them. -/
structure Span where
  start : Nat
  length : Nat
deriving DecidableEq, Repr, Inhabited

namespace Span

/-- The first place behind the span. -/
def stop (span : Span) : Nat :=
  span.start + span.length

/-- The span from `start` to `stop`, empty when `stop` lies in front. -/
def between (start stop : Nat) : Span :=
  ⟨start, stop - start⟩

/-- Whether the span has no place. -/
def isEmpty (span : Span) : Bool :=
  span.length == 0

/-- Whether a place lies in the span. -/
def contains (span : Span) (place : Nat) : Bool :=
  span.start ≤ place && place < span.stop

/-- Spans are ordered by their start, and by their stop where they start together. -/
def compare (first second : Span) : Ordering :=
  (Ord.compare first.start second.start).then (Ord.compare first.length second.length)

/-- The written form of a span, its start and its stop with two dots between. -/
def render (span : Span) : Text :=
  Text.ofNat span.start ++ ['.', '.'] ++ Text.ofNat span.stop

/-- The text that a span covers in a list of tokens. -/
def textIn (span : Span) (tokens : List Token) : Text :=
  Token.textBetween tokens span.start span.stop

/-- Insert a span into an ordered list of spans. -/
def insertOrdered (span : Span) : List Span → List Span
  | [] => [span]
  | next :: spans =>
      if (compare next span).isLE then next :: insertOrdered span spans
      else span :: next :: spans

/-- The spans in their order. -/
def sort (spans : List Span) : List Span :=
  spans.foldl (fun sorted span => insertOrdered span sorted) []

theorem contains_iff {span : Span} {place : Nat} :
    span.contains place = true ↔ span.start ≤ place ∧ place < span.stop := by
  simp [contains]

theorem start_le_stop (span : Span) : span.start ≤ span.stop :=
  Nat.le_add_right _ _

@[simp]
theorem between_start (start stop : Nat) : (between start stop).start = start := rfl

@[simp]
theorem between_stop (start stop : Nat) : (between start stop).stop = max start stop := by
  simp only [between, Span.stop]
  omega

end Span

end DocComment
