import DocComment.Proofs.Token.Crossing
import DocComment.Proofs.Token.Pieces
import DocComment.Rendering.Layout
import Mathlib.Data.List.Basic

/-!
# Gaps

The text between two places outside some spans is the text of the places that
remain (`gap_eq`).  Everything else about gaps is a fact about those places.
-/

namespace DocComment

namespace Token

/-- The text of the token at a place, empty behind the last token. -/
def textAt (tokens : List Token) (place : Nat) : Text :=
  (tokens[place]?.map Token.text).getD []

theorem textAt_of_getElem? {tokens : List Token} {place : Nat} {token : Token}
    (stands : tokens[place]? = some token) : textAt tokens place = token.text := by
  rw [textAt, stands]
  rfl

theorem textAt_of_length_le {tokens : List Token} {place : Nat} (beyond : tokens.length ≤ place) :
    textAt tokens place = [] := by
  rw [textAt, List.getElem?_eq_none beyond]
  rfl

end Token

namespace Layout

open Token

/-! ## Places outside spans -/

/-- The places from `start` up to `stop` outside the given spans. -/
def placesOutside (spans : List Span) (start stop : Nat) : List Nat :=
  (List.range' start (stop - start)).filter fun place => !spans.any (·.contains place)

theorem mem_placesOutside {spans : List Span} {start stop place : Nat} :
    place ∈ placesOutside spans start stop ↔
      (start ≤ place ∧ place < stop) ∧ ∀ span ∈ spans, span.contains place = false := by
  simp only [placesOutside, List.mem_filter, List.mem_range'_1, Bool.not_eq_true',
    List.any_eq_false, Bool.not_eq_true]
  exact and_congr_left fun _ => by omega

theorem pairwise_placesOutside (spans : List Span) (start stop : Nat) :
    (placesOutside spans start stop).Pairwise (· < ·) :=
  List.Pairwise.filter _ List.pairwise_lt_range'

theorem placesOutside_append (spans : List Span) {start middle stop : Nat}
    (first : start ≤ middle) (second : middle ≤ stop) :
    placesOutside spans start middle ++ placesOutside spans middle stop =
      placesOutside spans start stop := by
  have joined := List.range'_append_1 (s := start) (m := middle - start) (n := stop - middle)
  rw [show start + (middle - start) = middle by omega,
    show middle - start + (stop - middle) = stop - start by omega] at joined
  rw [placesOutside, placesOutside, placesOutside, ← List.filter_append, joined]

/-! ## Text outside spans -/

theorem textOutside_take_drop (tokens : List Token) (spans : List Span) (count place : Nat) :
    textOutside spans place ((tokens.drop place).take count) =
      ((List.range' place count).filter fun place => !spans.any (·.contains place)).flatMap
        (textAt tokens) := by
  induction count generalizing place with
  | zero => simp [textOutside]
  | succ count ih =>
      rcases Nat.lt_or_ge place tokens.length with within | beyond
      · have here := textAt_of_getElem? (List.getElem?_eq_getElem within)
        rw [List.drop_eq_getElem_cons within, List.take_succ_cons, List.range'_succ,
          textOutside, ih]
        cases covered : spans.any (·.contains place) <;> simp [covered, here]
      · rw [List.drop_eq_nil_of_le beyond, List.take_nil, textOutside, eq_comm,
          List.flatMap_eq_nil_iff]
        intro other mem
        have behind := (List.mem_range'_1.mp (List.mem_filter.mp mem).1).1
        exact textAt_of_length_le (Nat.le_trans beyond behind)

theorem gap_eq (tokens : List Token) (spans : List Span) (start stop : Nat) :
    gap tokens spans start stop = (placesOutside spans start stop).flatMap (textAt tokens) := by
  rw [gap, List.drop_take, textOutside_take_drop, placesOutside]

/-- The text of a place that is not left out belongs to the gap. -/
theorem mem_gap {tokens : List Token} {spans : List Span} {start place stop : Nat} {c : Char}
    (low : start ≤ place) (high : place < stop)
    (clear : ∀ span ∈ spans, span.contains place = false) (inside : c ∈ textAt tokens place) :
    c ∈ gap tokens spans start stop := by
  rw [gap_eq, List.mem_flatMap]
  exact ⟨place, mem_placesOutside.mpr ⟨⟨low, high⟩, clear⟩, inside⟩

/-- The same text, place by place. -/
theorem gap_eq_flatMap (tokens : List Token) (spans : List Span) (start stop : Nat) :
    gap tokens spans start stop = (List.range' start (stop - start)).flatMap fun place =>
      if spans.any (·.contains place) then [] else textAt tokens place := by
  rw [gap_eq, placesOutside]
  induction List.range' start (stop - start) with
  | nil => rfl
  | cons place places ih =>
      rw [List.filter_cons, List.flatMap_cons, ← ih]
      cases spans.any (·.contains place) <;> rfl

theorem gap_append (tokens : List Token) (spans : List Span) {start middle stop : Nat}
    (first : start ≤ middle) (second : middle ≤ stop) :
    gap tokens spans start middle ++ gap tokens spans middle stop =
      gap tokens spans start stop := by
  rw [gap_eq, gap_eq, gap_eq, ← List.flatMap_append, placesOutside_append spans first second]

/-- The text from a place on, with the token at that place in front. -/
theorem gap_step (tokens : List Token) (spans : List Span) {place stop : Nat}
    (within : place < stop) :
    gap tokens spans place stop =
      (if spans.any (·.contains place) then [] else textAt tokens place) ++
        gap tokens spans (place + 1) stop := by
  rw [gap_eq_flatMap, gap_eq_flatMap, show stop - place = stop - (place + 1) + 1 by omega,
    List.range'_succ, List.flatMap_cons]

theorem gap_self (tokens : List Token) (spans : List Span) (place : Nat) :
    gap tokens spans place place = [] := by
  rw [gap_eq_flatMap, Nat.sub_self]
  rfl

/-- Where everything is left out, no text remains. -/
theorem gap_of_covered (tokens : List Token) {spans : List Span} {span : Span}
    (mem : span ∈ spans) {start stop : Nat} (low : span.start ≤ start) (high : stop ≤ span.stop) :
    gap tokens spans start stop = [] := by
  rw [gap_eq, List.flatMap_eq_nil_iff]
  intro place among
  obtain ⟨⟨lower, upper⟩, clear⟩ := mem_placesOutside.mp among
  have covered := Span.contains_iff.mpr ⟨Nat.le_trans low lower, Nat.lt_of_lt_of_le upper high⟩
  rw [clear span mem] at covered
  cases covered

theorem textOutside_nil (place : Nat) (tokens : List Token) :
    textOutside [] place tokens = Token.textOf tokens := by
  induction tokens generalizing place with
  | nil => rfl
  | cons token rest ih => simp [textOutside, ih]

theorem gap_nil (tokens : List Token) (start stop : Nat) :
    gap tokens [] start stop = textBetween tokens start stop :=
  textOutside_nil start _

theorem gap_congr (tokens : List Token) {spans others : List Span} {start stop : Nat}
    (same : ∀ place, start ≤ place → place < stop →
      spans.any (·.contains place) = others.any (·.contains place)) :
    gap tokens spans start stop = gap tokens others start stop := by
  rw [gap_eq_flatMap, gap_eq_flatMap]
  refine List.flatMap_congr fun place mem => ?_
  have within := List.mem_range'_1.mp mem
  rw [same place within.1 (by omega)]

/-- Where no span reaches, the whole text remains. -/
theorem gap_eq_textBetween (tokens : List Token) {spans : List Span} {start stop : Nat}
    (clear : ∀ place, start ≤ place → place < stop → ∀ span ∈ spans, span.contains place = false) :
    gap tokens spans start stop = textBetween tokens start stop := by
  rw [← gap_nil]
  refine gap_congr tokens fun place lower upper => ?_
  simpa using clear place lower upper

end Layout

namespace Token

variable {text : Text} {place : Nat}

/-- A text around one of its tokens. -/
theorem text_eq_of_getElem? {token : Token} (found : (scan text)[place]? = some token) :
    text = textOf ((scan text).take place) ++
      (token.text ++ textOf ((scan text).drop (place + 1))) := by
  obtain ⟨within, same⟩ := List.getElem?_eq_some_iff.mp found
  calc
    text = textOf (scan text) := (textOf_scan text).symm
    _ = textOf ((scan text).take place ++ token :: (scan text).drop (place + 1)) := by
      rw [← same, ← List.drop_eq_getElem_cons within, List.take_append_drop]
    _ = _ := by rw [textOf_append, textOf_cons]

/-- The tokens of kinds other than `other` are pieces. -/
theorem isPiece_of_kindAt? {kind : Kind} (stands : kindAt? (scan text) place = some kind)
    (known : kind ≠ .other) :
    ∃ token, (scan text)[place]? = some token ∧ token.kind = kind ∧ token.IsPiece := by
  obtain ⟨token, found, rfl⟩ := kindAt?_eq_some_iff.mp stands
  exact ⟨token, found, rfl, isPiece_of_mem_scan (List.mem_of_getElem? found) known⟩

/-- The text of a line break in a scanned text has a line feed in it. -/
theorem newline_mem_textAt (stands : kindAt? (scan text) place = some .lineBreak) :
    '\n' ∈ textAt (scan text) place := by
  obtain ⟨token, found, kind, cut⟩ := isPiece_of_kindAt? stands (by decide)
  rw [textAt_of_getElem? found]
  exact (cut.text_of_lineBreak kind).mem

/-- Only padding remains of padding. -/
theorem isPadding_of_mem_gap {start stop : Nat} {spans : List Span}
    (padded : Padded (scan text) start stop) :
    ∀ c ∈ Layout.gap (scan text) spans start stop, isPadding c = true := by
  intro c mem
  rw [Layout.gap_eq, List.mem_flatMap] at mem
  obtain ⟨place, among, inside⟩ := mem
  obtain ⟨low, high⟩ := (Layout.mem_placesOutside.mp among).1
  obtain ⟨token, found, kind, cut⟩ := isPiece_of_kindAt? (padded.padding place low high) (by decide)
  rw [textAt_of_getElem? found] at inside
  exact cut.text_of_padding kind c inside

end Token

end DocComment
