import DocComment.Proofs.Reading.Lines
import DocComment.Proofs.Rendering.Removal

/-!
# What stands between entries

Between two entries stand starts of new lines and tokens of the source.  A
filling takes its tokens from a stretch of the source, in their order, and none
from the span of an entry; fillings of neighbouring stretches join.
-/

namespace DocComment

open Token

/-- A part of what stands between entries. -/
inductive Part where
  | newLine
  /-- The token at a place of the source. -/
  | token (place : Nat)
deriving DecidableEq, Repr

namespace Part

/-- The text of a part. -/
def text (tokens : List Token) : Part → Text
  | .newLine => linePrefix
  | .token place => textAt tokens place

/-- The place that a part was taken from. -/
def place? : Part → Option Nat
  | .newLine => none
  | .token place => some place

/-- The text of parts. -/
def textOf (tokens : List Token) (parts : List Part) : Text :=
  parts.flatMap (text tokens)

/-- The places that parts were taken from. -/
def places (parts : List Part) : List Nat :=
  parts.filterMap place?

@[simp]
theorem textOf_append (tokens : List Token) (first second : List Part) :
    textOf tokens (first ++ second) = textOf tokens first ++ textOf tokens second :=
  List.flatMap_append

@[simp]
theorem places_append (first second : List Part) :
    places (first ++ second) = places first ++ places second :=
  List.filterMap_append

@[simp]
theorem places_map_token (taken : List Nat) : places (taken.map .token) = taken := by
  induction taken with
  | nil => rfl
  | cons place taken ih => exact congrArg (place :: ·) ih

theorem textOf_map_token (tokens : List Token) (taken : List Nat) :
    textOf tokens (taken.map .token) = taken.flatMap (textAt tokens) := by
  rw [textOf, List.flatMap_map]
  rfl

end Part

/-- Parts whose places lie between two places, in their order and outside all spans. -/
structure Filling (spans : List Span) (start stop : Nat) (parts : List Part) : Prop where
  le : start ≤ stop
  ordered : (Part.places parts).Pairwise (· < ·)
  between : ∀ place ∈ Part.places parts, start ≤ place ∧ place < stop
  outside : ∀ place ∈ Part.places parts, ∀ span ∈ spans, span.contains place = false

namespace Filling

variable {spans omitted : List Span} {start middle stop : Nat} {parts others : List Part}

theorem nil (spans : List Span) (place : Nat) : Filling spans place place [] where
  le := Nat.le_refl _
  ordered := List.Pairwise.nil
  between := by simp [Part.places]
  outside := by simp [Part.places]

theorem newLine (spans : List Span) (le : start ≤ stop) : Filling spans start stop [.newLine] where
  le := le
  ordered := List.Pairwise.nil
  between := by simp [Part.places, Part.place?]
  outside := by simp [Part.places, Part.place?]

theorem append (first : Filling spans start middle parts)
    (second : Filling spans middle stop others) : Filling spans start stop (parts ++ others) := by
  refine ⟨Nat.le_trans first.le second.le, ?_, fun place mem => ?_, fun place mem => ?_⟩
  · rw [Part.places_append, List.pairwise_append]
    refine ⟨first.ordered, second.ordered, fun before one after other => ?_⟩
    exact Nat.lt_of_lt_of_le (first.between before one).2 (second.between after other).1
  · rw [Part.places_append, List.mem_append] at mem
    rcases mem with mem | mem
    · have inside := first.between place mem
      exact ⟨inside.1, Nat.lt_of_lt_of_le inside.2 second.le⟩
    · have inside := second.between place mem
      exact ⟨Nat.le_trans first.le inside.1, inside.2⟩
  · rw [Part.places_append, List.mem_append] at mem
    rcases mem with mem | mem
    · exact first.outside place mem
    · exact second.outside place mem

/-- A filling of a stretch is one of every longer stretch. -/
theorem mono {low high : Nat} (filling : Filling spans start stop parts) (below : low ≤ start)
    (above : stop ≤ high) : Filling spans low high parts where
  le := Nat.le_trans below (Nat.le_trans filling.le above)
  ordered := filling.ordered
  between place mem := by
    have inside := filling.between place mem
    omega
  outside := filling.outside

/-- A gap is a filling when what it omits covers all spans that reach into it. -/
theorem gap (le : start ≤ stop)
    (covers : ∀ span ∈ spans, ∀ place, start ≤ place → place < stop → span.contains place = true →
      ∃ other ∈ omitted, other.contains place = true) :
    Filling spans start stop ((Layout.placesOutside omitted start stop).map .token) := by
  refine ⟨le, ?_, fun place mem => ?_, fun place mem span among => ?_⟩
  · rw [Part.places_map_token]
    exact Layout.pairwise_placesOutside omitted start stop
  · rw [Part.places_map_token] at mem
    exact (Layout.mem_placesOutside.mp mem).1
  · rw [Part.places_map_token] at mem
    obtain ⟨⟨low, high⟩, clear⟩ := Layout.mem_placesOutside.mp mem
    rw [← Bool.not_eq_true]
    intro covered
    obtain ⟨other, left, holds⟩ := covers span among place low high covered
    rw [clear other left] at holds
    cases holds

end Filling

theorem textOf_placesOutside (tokens : List Token) (omitted : List Span) (start stop : Nat) :
    Part.textOf tokens ((Layout.placesOutside omitted start stop).map .token) =
      Layout.gap tokens omitted start stop := by
  rw [Part.textOf_map_token, Layout.gap_eq]

/-! ## Spans and the line breaks between them -/

namespace Token.Tiles

variable {tokens : List Token} {opening close : Nat} {spans : List Span} {span other : Span}

theorem start_le (tiles : Tiles tokens opening close spans) (mem : span ∈ spans) :
    span.start ≤ tokens.length := by
  have proper := span.start_le_stop
  have high := (tiles.inside span mem).2
  have within := tiles.close_le
  omega

theorem opening_lt_close (tiles : Tiles tokens opening close spans) : opening < close := by
  rcases Nat.lt_or_ge opening close with lt | ge
  · exact lt
  · have within := lt_length_of_kindAt? tiles.opens
    obtain ⟨kind, stands⟩ := exists_kindAt? (Nat.lt_of_le_of_lt ge within)
    have closing := tiles.closes kind stands
    rcases Nat.lt_or_eq_of_le ge with front | same
    · rw [tiles.front.padding close (Nat.zero_le _) front] at stands
      rw [closing] at stands
      cases stands
    · rw [same, tiles.opens, closing] at stands
      cases stands

/-- A line break separates a span from all that come before it. -/
theorem exists_break (tiles : Tiles tokens opening close spans) (mem : span ∈ spans)
    (among : other ∈ spans) (earlier : other.start < span.start) :
    ∃ feed, other.stop ≤ feed ∧ feed < span.start ∧ kindAt? tokens feed = some .lineBreak ∧
      ∀ third ∈ spans, third.stop ≤ feed ∨ span.start ≤ third.start := by
  rcases tiles.broken span mem with ⟨_, first⟩ | ⟨feed, stands, back, apart⟩
  · exact absurd (first other among) (Nat.not_le.mpr earlier)
  · exact ⟨feed, (apart other among).resolve_right (Nat.not_le.mpr earlier), back.start_le, stands,
      apart⟩

/-- What stands right in front of a span, and the span, stay when another one is left out. -/
theorem not_contains_widen (tiles : Tiles tokens opening close spans) (mem : span ∈ spans)
    (among : other ∈ spans) (distinct : other ≠ span) {place : Nat} (front : place < span.stop)
    (apart : other.stop ≤ place ∨ span.start ≤ other.start) (floor : Nat) :
    (Layout.widen tokens floor other).contains place = false := by
  have within := tiles.start_le among
  rw [← Bool.not_eq_true, Span.contains_iff, Layout.widen_stop floor within]
  rintro ⟨low, high⟩
  rcases apart with behind | later
  · exact absurd high (Nat.not_lt.mpr behind)
  · rcases Span.precedes_or_precedes tiles.precede mem among distinct.symm with precedes | precedes
    · obtain ⟨next, reach, near, stands, _⟩ := tiles.exists_break among mem precedes.1
      have kept := Layout.le_widen_start_of_lineBreak floor within near stands
      have proper := span.start_le_stop
      omega
    · exact absurd precedes.1 (Nat.not_lt.mpr later)

theorem openingEnd_eq (tiles : Tiles tokens opening close spans) :
    Layout.openingEnd tokens = opening + 1 := by
  have found : (tokens.findIdx? fun token => token.kind == .opening) = some opening := by
    obtain ⟨token, stands, kind⟩ := kindAt?_eq_some_iff.mp tiles.opens
    obtain ⟨within, same⟩ := List.getElem?_eq_some_iff.mp stands
    rw [List.findIdx?_eq_some_iff_getElem]
    refine ⟨within, by rw [same, kind]; rfl, fun place before => ?_⟩
    have padding := tiles.front.padding place (Nat.zero_le _) before
    rw [kindAt?_of_lt (Nat.lt_trans before within)] at padding
    rw [Option.some.inj padding]
    decide
  rw [Layout.openingEnd, found]

end Token.Tiles

end DocComment
