import DocComment.Proofs.Reading.Order
import DocComment.Proofs.Rendering.Gap
import DocComment.Rendering.Document
import Mathlib.Data.List.Nodup

/-!
# Spans that are left out

Widening a span takes in the padding in front of it and one line break at
most, so it stops short of whatever stands in front of that line break
(`widen_start`).  The spans that are left out are the widened spans of the
entries that no present entry carries (`removedSpans_eq`).
-/

namespace DocComment

open Token

namespace Layout

/-! ## Going back -/

theorem backOverPadding_padded {tokens : List Token} {floor place : Nat}
    (within : place ≤ tokens.length) :
    Padded tokens (backOverPadding tokens floor place) place := by
  induction place with
  | zero => exact .refl tokens 0
  | succ place ih =>
      unfold backOverPadding
      split
      next goesOn =>
        rw [Bool.and_eq_true, beq_iff_eq] at goesOn
        have padded := ih (by omega)
        refine ⟨Nat.le_succ_of_le padded.start_le, fun other lower upper => ?_⟩
        rcases Nat.lt_succ_iff_lt_or_eq.mp upper with inside | rfl
        · exact padded.padding other lower inside
        · exact goesOn.2
      next => exact .refl tokens _

/-- Going back stops behind the first token that is no padding. -/
theorem backOverPadding_of_padded {tokens : List Token} {floor front place : Nat}
    (low : floor ≤ front + 1) (padded : Padded tokens (front + 1) place)
    (other : kindAt? tokens front ≠ some .padding) :
    backOverPadding tokens floor place = front + 1 := by
  induction place with
  | zero => exact absurd padded.start_le (Nat.not_succ_le_zero front)
  | succ place ih =>
      rcases Nat.lt_or_eq_of_le padded.start_le with lt | same
      · have here := padded.padding place (Nat.le_of_lt_succ lt) (Nat.lt_succ_self place)
        rw [backOverPadding, here, if_pos (by simp; omega)]
        exact ih ⟨Nat.le_of_lt_succ lt,
          fun middle lower upper => padded.padding middle lower (by omega)⟩
      · cases same
        rw [backOverPadding, if_neg (by simp [other])]

theorem backOverBreak_eq (tokens : List Token) (floor place : Nat) :
    backOverBreak tokens floor place = place ∨
      backOverBreak tokens floor place + 1 = place ∧
        kindAt? tokens (backOverBreak tokens floor place) = some .lineBreak := by
  cases place with
  | zero => exact Or.inl rfl
  | succ place =>
      rw [backOverBreak]
      split
      next goesBack =>
        rw [Bool.and_eq_true, beq_iff_eq] at goesBack
        exact Or.inr ⟨rfl, goesBack.2⟩
      next => exact Or.inl rfl

/-! ## Widening -/

variable {tokens : List Token} {span : Span}

/-- In front of a span, widening takes in padding and at most one line break in front of that. -/
theorem widen_start (floor : Nat) (within : span.start ≤ tokens.length) :
    ∃ middle, Padded tokens middle span.start ∧
      ((widen tokens floor span).start = middle ∨
        (widen tokens floor span).start + 1 = middle ∧
          kindAt? tokens (widen tokens floor span).start = some .lineBreak) :=
  ⟨_, backOverPadding_padded within, backOverBreak_eq tokens floor _⟩

theorem widen_start_le (floor : Nat) (within : span.start ≤ tokens.length) :
    (widen tokens floor span).start ≤ span.start := by
  obtain ⟨middle, padded, widened⟩ := widen_start floor within
  have front := padded.start_le
  rcases widened with same | ⟨behind, _⟩ <;> omega

@[simp]
theorem widen_stop (floor : Nat) (within : span.start ≤ tokens.length) :
    (widen tokens floor span).stop = span.stop := by
  have low := widen_start_le floor within
  have proper := span.start_le_stop
  unfold widen at low ⊢
  rw [Span.between_start] at low
  rw [Span.between_stop]
  omega

/-- The line break in front of a span and of its padding goes with it. -/
theorem widen_start_of_lineBreak {floor feed : Nat} (low : floor ≤ feed)
    (padded : Padded tokens (feed + 1) span.start)
    (stands : kindAt? tokens feed = some .lineBreak) :
    (widen tokens floor span).start = feed := by
  have back : backOverPadding tokens floor span.start = feed + 1 :=
    backOverPadding_of_padded (Nat.le_succ_of_le low) padded (by rw [stands]; decide)
  rw [widen, back, backOverBreak, stands]
  exact if_pos (by simp; omega)

/-- The opening marker stays. -/
theorem widen_start_of_opening {floor opening : Nat} (low : floor ≤ opening)
    (padded : Padded tokens (opening + 1) span.start)
    (stands : kindAt? tokens opening = some .opening) :
    (widen tokens floor span).start = opening + 1 := by
  have back : backOverPadding tokens floor span.start = opening + 1 :=
    backOverPadding_of_padded (Nat.le_succ_of_le low) padded (by rw [stands]; decide)
  rw [widen, Span.between_start, back, backOverBreak, stands]
  exact if_neg (by simp)

/-- Only one line break goes, so nothing in front of a line break does. -/
theorem le_widen_start_of_lineBreak (floor : Nat) (within : span.start ≤ tokens.length)
    {place : Nat} (front : place < span.start) (stands : kindAt? tokens place = some .lineBreak) :
    place ≤ (widen tokens floor span).start := by
  obtain ⟨middle, padded, widened⟩ := widen_start floor within
  have outside : place < middle := by
    rcases Nat.lt_or_ge place middle with outside | inside
    · exact outside
    · rw [padded.padding place inside front] at stands
      cases stands
  rcases widened with same | ⟨behind, _⟩ <;> omega

/-- The floor up to which a span is widened: the first one, or the end of an earlier span. -/
def IsFloor (spans : List Span) (first : Nat) (span : Span) (floor : Nat) : Prop :=
  floor = first ∨ ∃ before ∈ spans, before.Precedes span ∧ floor = before.stop

theorem IsFloor.cons {first : Span} {spans : List Span} {start floor : Nat}
    (precedes : first.Precedes span) (isFloor : IsFloor spans first.stop span floor) :
    IsFloor (first :: spans) start span floor := by
  apply Or.inr
  rcases isFloor with same | ⟨before, listed, ahead, same⟩
  · exact ⟨first, List.mem_cons_self, precedes, same⟩
  · exact ⟨before, List.mem_cons_of_mem _ listed, ahead, same⟩

theorem mem_widenAll {floor : Nat} {spans : List Span} (precede : spans.Pairwise Span.Precedes)
    {widened : Span} (mem : widened ∈ widenAll tokens floor spans) :
    ∃ span ∈ spans, ∃ reached, IsFloor spans floor span reached ∧
      widened = widen tokens reached span := by
  induction spans generalizing floor with
  | nil => simp [widenAll] at mem
  | cons first spans ih =>
      obtain ⟨front, later⟩ := List.pairwise_cons.mp precede
      rcases List.mem_cons.mp mem with rfl | mem
      · exact ⟨first, List.mem_cons_self, floor, Or.inl rfl, rfl⟩
      · obtain ⟨other, among, reached, isFloor, same⟩ := ih later mem
        exact ⟨other, List.mem_cons_of_mem _ among, reached, isFloor.cons (front other among), same⟩

theorem exists_widen_of_mem (tokens : List Token) (floor : Nat) {spans : List Span}
    (precede : spans.Pairwise Span.Precedes) (mem : span ∈ spans) :
    ∃ reached, IsFloor spans floor span reached ∧
      widen tokens reached span ∈ widenAll tokens floor spans := by
  induction spans generalizing floor with
  | nil => simp at mem
  | cons first spans ih =>
      obtain ⟨front, later⟩ := List.pairwise_cons.mp precede
      rcases List.mem_cons.mp mem with rfl | mem
      · exact ⟨floor, Or.inl rfl, List.mem_cons_self⟩
      · obtain ⟨reached, isFloor, among⟩ := ih first.stop later mem
        exact ⟨reached, isFloor.cons (front span mem), List.mem_cons_of_mem _ among⟩

end Layout

/-! ## Sorting -/

namespace Span

theorem compare_isLE_of_precedes {first second : Span} (precedes : first.Precedes second) :
    (compare first second).isLE = true := by
  have less : Ord.compare first.start second.start = .lt := Nat.compare_eq_lt.mpr precedes.1
  rw [compare, less]
  rfl

theorem insertOrdered_eq_append {span : Span} {spans : List Span}
    (last : ∀ other ∈ spans, other.Precedes span) : insertOrdered span spans = spans ++ [span] := by
  induction spans with
  | nil => rfl
  | cons next spans ih =>
      have before := compare_isLE_of_precedes (last next List.mem_cons_self)
      rw [insertOrdered, if_pos before, ih fun other mem => last other (List.mem_cons_of_mem _ mem)]
      rfl

/-- Spans in their order stay where they are. -/
theorem sort_eq_self {spans : List Span} (precede : spans.Pairwise Precedes) :
    sort spans = spans := by
  have step (sorted : List Span) (whole : (sorted ++ spans).Pairwise Precedes) :
      spans.foldl (fun sorted span => insertOrdered span sorted) sorted = sorted ++ spans := by
    induction spans generalizing sorted with
    | nil => simp
    | cons span spans ih =>
        have last : ∀ other ∈ sorted, other.Precedes span := fun other mem =>
          (List.pairwise_append.mp whole).2.2 other mem span List.mem_cons_self
        rw [List.foldl_cons, insertOrdered_eq_append last,
          ih (List.pairwise_cons.mp precede).2 (sorted ++ [span]) (by simpa using whole)]
        simp
  exact step [] precede

theorem nodup_of_precede {spans : List Span} (precede : spans.Pairwise Precedes) :
    spans.Nodup := by
  refine precede.imp fun {first second} precedes same => ?_
  rw [same] at precedes
  exact Nat.lt_irrefl _ precedes.1

end Span

/-! ## The entries of a document -/

namespace Layout

variable {entries : List Entry} {spans : List Span}

theorem spansOf_eq_ok (spans? : entries.map Entry.span? = spans.map some) :
    spansOf entries = .ok spans := by
  induction entries generalizing spans with
  | nil =>
      cases spans with
      | nil => rfl
      | cons => simp at spans?
  | cons entry entries ih =>
      cases spans with
      | nil => simp at spans?
      | cons span spans =>
          rw [List.map_cons, List.map_cons, List.cons.injEq] at spans?
          unfold spansOf
          rw [spans?.1, ih spans?.2]
          rfl

theorem filterMap_span? (spans? : entries.map Entry.span? = spans.map some) :
    entries.filterMap Entry.span? = spans := by
  have found := congrArg (List.filterMap id) spans?
  rw [List.filterMap_map, List.filterMap_map] at found
  simpa using found

theorem carries_iff {span : Span} :
    carries entries span = true ↔ span ∈ entries.filterMap Entry.span? := by
  simp [carries]

/-- Those of some spans that no present entry carries, each widened up to the one before. -/
def leftOut (document : Document) (spans : List Span) : List Span :=
  widenAll document.tokens 0 (spans.filter fun span => !carries document.comment.entries span)

/-- The spans of the entries that were read are left out, unless a present entry carries them. -/
theorem removedSpans_eq {document : Document}
    (spans? : document.asRead.entries.map Entry.span? = spans.map some)
    (precede : spans.Pairwise Span.Precedes) :
    removedSpans document = .ok (leftOut document spans) := by
  unfold removedSpans leftOut
  rw [spansOf_eq_ok spans?, ← Span.sort_eq_self (precede.filter _)]
  rfl

/-- No two entries of a comment that was read share a span. -/
theorem eq_of_span?_eq (spans? : entries.map Entry.span? = spans.map some)
    (precede : spans.Pairwise Span.Precedes) {first second : Entry} (one : first ∈ entries)
    (other : second ∈ entries) (same : first.span? = second.span?) : first = second := by
  refine List.inj_on_of_nodup_map (f := Entry.span?) ?_ one other same
  rw [spans?]
  exact (Span.nodup_of_precede precede).map fun _ _ equal => Option.some.inj equal

/-- An entry is untouched if it was read as it is. -/
theorem isUntouched_iff {asRead : Comment} {entry : Entry} {span : Span}
    (spans? : asRead.entries.map Entry.span? = spans.map some)
    (precede : spans.Pairwise Span.Precedes) (stands : entry.span? = some span) :
    isUntouched asRead entry span = true ↔ entry ∈ asRead.entries := by
  unfold isUntouched
  cases found : asRead.entries.find? fun other => other.span? == some span with
  | none =>
      constructor
      · exact fun untouched => absurd untouched Bool.false_ne_true
      · exact fun mem => absurd (beq_iff_eq.mpr stands) (List.find?_eq_none.mp found entry mem)
  | some other =>
      have among := List.mem_of_find?_eq_some found
      have carried : other.span? = some span := by simpa using List.find?_some found
      constructor
      · intro same
        exact beq_iff_eq.mp same ▸ among
      · intro mem
        exact beq_iff_eq.mpr (eq_of_span?_eq spans? precede among mem (carried.trans stands.symm))

end Layout

/-- Nothing is written of a comment that has lost all its content. -/
theorem Document.render_of_void {document : Document} (nonempty : document.tokens ≠ [])
    (void : (!document.asRead.isVoid && document.comment.isVoid) = true) :
    document.render = .ok [] := by
  unfold Document.render
  rw [List.isEmpty_eq_false_iff.mpr nonempty, void]
  rfl

/-- A comment of which something is left is laid out and cleaned up. -/
theorem Document.render_of_present {document : Document} {removed : List Span}
    (nonempty : document.tokens ≠ [])
    (present : (!document.asRead.isVoid && document.comment.isVoid) = false)
    (left : Layout.removedSpans document = .ok removed) :
    document.render = .ok (Cleanup.finish (document.laidOut removed).2 document.comment.onOneLine
      (document.laidOut removed).1) := by
  unfold Document.render
  rw [List.isEmpty_eq_false_iff.mpr nonempty, present, left]
  rfl

end DocComment
