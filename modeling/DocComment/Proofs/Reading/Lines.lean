import DocComment.Proofs.Reading.Order

/-!
# One entry, one line break

When every rule keeps payloads as they are written, the entries of a comment
and single line breaks take turns, and only padding stands beside them
(`Lines`).  `Tiles` collects what follows from it about the spans; it is all
that layout needs to know about how a document was read.
-/

namespace DocComment

open Token

namespace Token

/-- From one place to another stands one line break, and beside it only padding. -/
def Broken (tokens : List Token) (start stop : Nat) : Prop :=
  ∃ place, Padded tokens start place ∧ kindAt? tokens place = some .lineBreak ∧
    Padded tokens (place + 1) stop

theorem Broken.lt {tokens : List Token} {start stop : Nat} (broken : Broken tokens start stop) :
    start < stop := by
  obtain ⟨place, front, _, back⟩ := broken
  have low := front.start_le
  have high := back.start_le
  omega

/-- Spans up to the closing marker, each behind a line break. -/
inductive Lines (tokens : List Token) (close : Nat) : Nat → List Span → Prop
  | last {place : Nat} (padded : Padded tokens place close) : Lines tokens close place []
  | ended {place : Nat} (broken : Broken tokens place close) : Lines tokens close place []
  | next {place : Nat} {span : Span} {spans : List Span}
      (broken : Broken tokens place span.start) (later : Lines tokens close span.stop spans) :
      Lines tokens close place (span :: spans)

/-- Spans behind the opening marker, whose line the first one may share. -/
inductive Opened (tokens : List Token) (close : Nat) : Nat → List Span → Prop
  | lines {place : Nat} {spans : List Span} (lines : Lines tokens close place spans) :
      Opened tokens close place spans
  | shared {place : Nat} {span : Span} {spans : List Span}
      (padded : Padded tokens place span.start) (later : Lines tokens close span.stop spans) :
      Opened tokens close place (span :: spans)

namespace Lines

variable {tokens : List Token} {close place : Nat} {spans : List Span}

theorem place_le (lines : Lines tokens close place spans) : place ≤ close := by
  induction lines with
  | last padded => exact padded.start_le
  | ended broken => exact Nat.le_of_lt broken.lt
  | @next place span spans broken later ih =>
      have low := broken.lt
      have proper := span.start_le_stop
      omega

theorem inside (lines : Lines tokens close place spans) :
    ∀ span ∈ spans, place < span.start ∧ span.stop ≤ close := by
  induction lines with
  | last => simp
  | ended => simp
  | @next place span spans broken later ih =>
      intro other mem
      have low := broken.lt
      rcases List.mem_cons.mp mem with rfl | mem
      · exact ⟨low, later.place_le⟩
      · have proper := span.start_le_stop
        obtain ⟨start, stop⟩ := ih other mem
        exact ⟨by omega, stop⟩

theorem precede (lines : Lines tokens close place spans) : spans.Pairwise Span.Precedes := by
  induction lines with
  | last => exact List.Pairwise.nil
  | ended => exact List.Pairwise.nil
  | @next place span spans broken later ih =>
      refine List.pairwise_cons.mpr ⟨fun other mem => ?_, ih⟩
      have proper := span.start_le_stop
      have beyond := (later.inside other mem).1
      exact ⟨by omega, by omega⟩

/-- The line break in front of a span lies behind all spans that come before it. -/
theorem exists_break (lines : Lines tokens close place spans) :
    ∀ span ∈ spans, ∃ feed, place ≤ feed ∧ kindAt? tokens feed = some .lineBreak ∧
      Padded tokens (feed + 1) span.start ∧
        ∀ other ∈ spans, other.stop ≤ feed ∨ span.start ≤ other.start := by
  induction lines with
  | last => simp
  | ended => simp
  | @next place span spans broken later ih =>
      intro current mem
      have low := broken.lt
      have proper := span.start_le_stop
      rcases List.mem_cons.mp mem with rfl | mem
      · obtain ⟨feed, front, stands, back⟩ := broken
        refine ⟨feed, front.start_le, stands, back, fun other among => Or.inr ?_⟩
        rcases List.mem_cons.mp among with rfl | among
        · exact Nat.le_refl _
        · have beyond := (later.inside other among).1
          omega
      · obtain ⟨feed, behind, stands, back, apart⟩ := ih current mem
        refine ⟨feed, by omega, stands, back, fun other among => ?_⟩
        rcases List.mem_cons.mp among with rfl | among
        · exact Or.inl behind
        · exact apart other among

/-- Two line breaks in a row have an entry between them. -/
theorem exists_blank (lines : Lines tokens close place spans)
    (closes : kindAt? tokens close ≠ some .lineBreak)
    (first : kindAt? tokens place = some .lineBreak)
    (second : kindAt? tokens (place + 1) = some .lineBreak) :
    ∃ span ∈ spans, span.start = place + 1 := by
  have here {stop : Nat} (padded : Padded tokens place stop) : stop = place :=
    padded.eq_of_kindAt? (by rw [first]; decide)
  have next {stop : Nat} (padded : Padded tokens (place + 1) stop) : stop = place + 1 :=
    padded.eq_of_kindAt? (by rw [second]; decide)
  cases lines with
  | last padded =>
      rw [here padded] at closes
      exact absurd first closes
  | ended broken =>
      obtain ⟨feed, front, _, back⟩ := broken
      rw [here front] at back
      rw [next back] at closes
      exact absurd second closes
  | @next _ span _ broken later =>
      obtain ⟨feed, front, _, back⟩ := broken
      rw [here front] at back
      exact ⟨span, List.mem_cons_self, next back⟩

/-- Behind a span there is only padding up to the next line break or the close. -/
theorem trailed (lines : Lines tokens close place spans) :
    (∃ stop, Padded tokens place stop ∧ (kindAt? tokens stop = some .lineBreak ∨ stop = close)) ∧
      ∀ span ∈ spans, ∃ stop, Padded tokens span.stop stop ∧
        (kindAt? tokens stop = some .lineBreak ∨ stop = close) := by
  induction lines with
  | last padded => exact ⟨⟨close, padded, Or.inr rfl⟩, by simp⟩
  | ended broken =>
      obtain ⟨feed, front, stands, _⟩ := broken
      exact ⟨⟨feed, front, Or.inl stands⟩, by simp⟩
  | next broken later ih =>
      obtain ⟨feed, front, stands, _⟩ := broken
      refine ⟨⟨feed, front, Or.inl stands⟩, fun other mem => ?_⟩
      rcases List.mem_cons.mp mem with rfl | mem
      · exact ih.1
      · exact ih.2 other mem

end Lines

/-- What the spans of a comment are to its tokens. -/
structure Tiles (tokens : List Token) (opening close : Nat) (spans : List Span) : Prop where
  front : Padded tokens 0 opening
  opens : kindAt? tokens opening = some .opening
  close_le : close ≤ tokens.length
  closes : ∀ kind, kindAt? tokens close = some kind → kind = .closing
  /-- The first closing marker is the one at the close. -/
  unclosed : ∀ place < close, kindAt? tokens place ≠ some .closing
  inside : ∀ span ∈ spans, opening < span.start ∧ span.stop ≤ close
  precede : spans.Pairwise Span.Precedes
  /-- A line break separates every span from all before it; only the first may do without. -/
  broken : ∀ span ∈ spans,
    (Padded tokens (opening + 1) span.start ∧ ∀ other ∈ spans, span.start ≤ other.start) ∨
      ∃ feed, kindAt? tokens feed = some .lineBreak ∧ Padded tokens (feed + 1) span.start ∧
        ∀ other ∈ spans, other.stop ≤ feed ∨ span.start ≤ other.start
  /-- Behind every span comes the end of its line. -/
  trailed : ∀ span ∈ spans, ∃ stop, Padded tokens span.stop stop ∧
    (kindAt? tokens stop = some .lineBreak ∨ stop = close)
  /-- An empty line behind an entry is an entry. -/
  blank : ∀ span ∈ spans, kindAt? tokens span.stop = some .lineBreak →
    kindAt? tokens (span.stop + 1) = some .lineBreak → ∃ next ∈ spans, next.start = span.stop + 1

namespace Opened

variable {tokens : List Token} {close place : Nat} {spans : List Span}

theorem inside (opened : Opened tokens close place spans) :
    ∀ span ∈ spans, place ≤ span.start ∧ span.stop ≤ close := by
  cases opened with
  | lines lines =>
      intro span mem
      obtain ⟨start, stop⟩ := lines.inside span mem
      exact ⟨Nat.le_of_lt start, stop⟩
  | @shared first spans padded later =>
      intro span mem
      have low := padded.start_le
      have proper := first.start_le_stop
      rcases List.mem_cons.mp mem with rfl | mem
      · exact ⟨low, later.place_le⟩
      · obtain ⟨start, stop⟩ := later.inside span mem
        exact ⟨by omega, stop⟩

theorem precede (opened : Opened tokens close place spans) : spans.Pairwise Span.Precedes := by
  cases opened with
  | lines lines => exact lines.precede
  | @shared first spans padded later =>
      refine List.pairwise_cons.mpr ⟨fun other mem => ?_, later.precede⟩
      have proper := first.start_le_stop
      have beyond := (later.inside other mem).1
      exact ⟨by omega, by omega⟩

theorem broken (opened : Opened tokens close place spans) :
    ∀ span ∈ spans, (Padded tokens place span.start ∧ ∀ other ∈ spans, span.start ≤ other.start) ∨
      ∃ feed, kindAt? tokens feed = some .lineBreak ∧ Padded tokens (feed + 1) span.start ∧
        ∀ other ∈ spans, other.stop ≤ feed ∨ span.start ≤ other.start := by
  cases opened with
  | lines lines =>
      intro span mem
      obtain ⟨feed, _, stands, back, apart⟩ := lines.exists_break span mem
      exact Or.inr ⟨feed, stands, back, apart⟩
  | @shared first spans padded later =>
      intro span mem
      have proper := first.start_le_stop
      rcases List.mem_cons.mp mem with rfl | mem
      · refine Or.inl ⟨padded, fun other among => ?_⟩
        rcases List.mem_cons.mp among with rfl | among
        · exact Nat.le_refl _
        · have beyond := (later.inside other among).1
          omega
      · obtain ⟨feed, behind, stands, back, apart⟩ := later.exists_break span mem
        refine Or.inr ⟨feed, stands, back, fun other among => ?_⟩
        rcases List.mem_cons.mp among with rfl | among
        · exact Or.inl behind
        · exact apart other among

theorem trailed (opened : Opened tokens close place spans) :
    ∀ span ∈ spans, ∃ stop, Padded tokens span.stop stop ∧
      (kindAt? tokens stop = some .lineBreak ∨ stop = close) := by
  cases opened with
  | lines lines => exact lines.trailed.2
  | @shared first spans padded later =>
      intro span mem
      rcases List.mem_cons.mp mem with rfl | mem
      · exact later.trailed.1
      · exact later.trailed.2 span mem

end Opened

theorem Lines.blank {tokens : List Token} {close place : Nat} {spans : List Span}
    (lines : Lines tokens close place spans) (closes : kindAt? tokens close ≠ some .lineBreak) :
    ∀ span ∈ spans, kindAt? tokens span.stop = some .lineBreak →
      kindAt? tokens (span.stop + 1) = some .lineBreak →
        ∃ next ∈ spans, next.start = span.stop + 1 := by
  induction lines with
  | last => simp
  | ended => simp
  | @next place span spans broken later ih =>
      intro current mem first second
      rcases List.mem_cons.mp mem with rfl | mem
      · obtain ⟨next, among, start⟩ := later.exists_blank closes first second
        exact ⟨next, List.mem_cons_of_mem _ among, start⟩
      · obtain ⟨next, among, start⟩ := ih current mem first second
        exact ⟨next, List.mem_cons_of_mem _ among, start⟩

theorem Opened.blank {tokens : List Token} {close place : Nat} {spans : List Span}
    (opened : Opened tokens close place spans) (closes : kindAt? tokens close ≠ some .lineBreak) :
    ∀ span ∈ spans, kindAt? tokens span.stop = some .lineBreak →
      kindAt? tokens (span.stop + 1) = some .lineBreak →
        ∃ next ∈ spans, next.start = span.stop + 1 := by
  cases opened with
  | lines lines => exact lines.blank closes
  | @shared first spans padded later =>
      intro current mem feed second
      rcases List.mem_cons.mp mem with rfl | mem
      · obtain ⟨next, among, start⟩ := later.exists_blank closes feed second
        exact ⟨next, List.mem_cons_of_mem _ among, start⟩
      · obtain ⟨next, among, start⟩ := later.blank closes current mem feed second
        exact ⟨next, List.mem_cons_of_mem _ among, start⟩

end Token

namespace Dialect

variable {dialect : Dialect} {cursor after : Cursor}

/-- One round of the loop over the lines leaves the invariant one span shorter. -/
theorem lines_of_furtherEntries (verbatim : dialect.OnlyVerbatim) {bound : Nat}
    {found : List Entry} (enough : cursor.rest.length < bound)
    (ends : cursor.isAtLineEnd = true) {place : Nat}
    (padded : Padded cursor.tokens place cursor.index)
    (run : furtherEntries dialect bound cursor = .ok found after) :
    ∃ spans, found.map Entry.span? = spans.map some ∧
      Lines cursor.tokens after.index place spans ∧
        cursor.Crosses (· ≠ .closing) after ∧ after.isAtClose = true := by
  induction bound generalizing cursor found place with
  | zero => exact absurd enough (Nat.not_lt_zero _)
  | succ bound ih =>
      have indent (broken : cursor.isAt .lineBreak = true) :=
        Cursor.padded_advance (beq_iff_eq.mp broken)
      have crossed (broken : cursor.isAt .lineBreak = true) :
          cursor.Crosses (· ≠ .closing) cursor.advance := by
        refine cursor.crosses_advance (by decide) fun kind here => ?_
        rw [beq_iff_eq.mp broken] at here
        cases here
        decide
      cases round_of_furtherEntries run with
      | closed closed => exact ⟨[], rfl, .last padded, .refl _ _, closed⟩
      | ended broken closed =>
          exact ⟨[], rfl, .ended ⟨_, padded, Cursor.isAt_iff.mp broken, indent broken⟩,
            crossed broken, closed⟩
      | rest within => cases ends.symm.trans within
      | @line _ _ middle _ broken opens taken ran =>
          obtain ⟨span, fills⟩ := fills_of_entry verbatim taken
          have moved := (crossed broken).trans fills.crosses
          have shorter : middle.rest.length < bound := by
            have beyond := Cursor.index_lt_advance (beq_iff_eq.mp broken)
            have forward := fills.crosses.index_le
            rw [Cursor.length_rest] at enough ⊢
            rw [moved.tokens]
            have within := middle.index_le_length
            rw [moved.tokens] at within
            omega
          have trailing := fills.padded
          rw [cursor.tokens_advance, ← moved.tokens] at trailing
          obtain ⟨spans, spans?, lines, later, closed⟩ := ih shorter fills.ends trailing ran
          refine ⟨span :: spans, ?_, .next ⟨_, padded, Cursor.isAt_iff.mp broken, ?_⟩ ?_,
            moved.trans later, closed⟩
          · rw [List.map_cons, List.map_cons, fills.span?, spans?]
          · rw [fills.start]
            exact indent broken
          · rw [← moved.tokens]
            exact lines

theorem opened_of_entries (verbatim : dialect.OnlyVerbatim) {found : List Entry} {place : Nat}
    (padded : Padded cursor.tokens place cursor.index ∨ Broken cursor.tokens place cursor.index)
    (run : entries dialect cursor = .ok found after) :
    ∃ spans, found.map Entry.span? = spans.map some ∧
      Opened cursor.tokens after.index place spans ∧
        cursor.Crosses (· ≠ .closing) after ∧ after.isAtClose = true := by
  rcases entries_eq_ok run with ⟨closed, rfl, rfl⟩ | ⟨-, first, others, middle, taken, ran, rfl⟩
  · rcases padded with padded | broken
    · exact ⟨[], rfl, .lines (.last padded), .refl _ _, closed⟩
    · exact ⟨[], rfl, .lines (.ended broken), .refl _ _, closed⟩
  · obtain ⟨span, fills⟩ := fills_of_entry verbatim taken
    have trailing := fills.padded
    rw [← fills.crosses.tokens] at trailing
    obtain ⟨spans, spans?, lines, later, closed⟩ :=
      lines_of_furtherEntries verbatim (Nat.lt_succ_self _) fills.ends trailing ran
    rw [fills.crosses.tokens] at lines
    rw [← fills.start] at padded
    refine ⟨span :: spans, ?_, ?_, fills.crosses.trans later, closed⟩
    · rw [List.map_cons, List.map_cons, fills.span?, spans?]
    · rcases padded with padded | broken
      · exact .shared padded lines
      · exact .lines (.next broken lines)

/-- The opening marker and the line break behind it lead up to the first entry. -/
theorem lead_of_opening (opens : cursor.kind? = some .opening) :
    cursor.Crosses (· ≠ .closing) (cursor.advance.accept .lineBreak) ∧
      (Padded cursor.tokens (cursor.index + 1) (cursor.advance.accept .lineBreak).index ∨
        Broken cursor.tokens (cursor.index + 1) (cursor.advance.accept .lineBreak).index) := by
  have indent := Cursor.padded_advance opens
  have advanced : cursor.Crosses (· ≠ .closing) cursor.advance := by
    refine cursor.crosses_advance (by decide) fun kind here => ?_
    rw [opens] at here
    cases here
    decide
  constructor
  · exact advanced.trans (Cursor.crosses_accept _ _ (by decide) (by decide))
  · cases broken : cursor.advance.isAt .lineBreak with
    | true =>
        have stands := Cursor.isAt_iff.mp broken
        have behind := Cursor.padded_advance (beq_iff_eq.mp broken)
        rw [Cursor.tokens_advance] at stands behind
        rw [Cursor.accept_of_isAt broken]
        exact Or.inr ⟨_, indent, stands, behind⟩
    | false =>
        rw [Cursor.accept_of_not_isAt broken]
        exact Or.inl indent

/-- The spans of a comment tile it, and take turns with its line breaks. -/
theorem opened_of_read (verbatim : dialect.OnlyVerbatim) {text : Text} {document : Document}
    (run : dialect.read text = .ok document) :
    ∃ opening close spans, document.asRead.entries.map Entry.span? = spans.map some ∧
      Tiles document.tokens opening close spans ∧
        Opened document.tokens close (opening + 1) spans := by
  obtain ⟨opens, items, last, ran, rfl⟩ := read_eq_ok run
  change ∃ opening close spans, items.map Entry.span? = spans.map some ∧
    Tiles (scan text) opening close spans ∧ Opened (scan text) close (opening + 1) spans
  have front := Cursor.padded_ofTokens (scan text)
  generalize source : Cursor.ofTokens (scan text) = cursor at opens ran front
  have tokens : cursor.tokens = scan text := by
    rw [← source, Cursor.ofTokens, Cursor.tokens_placed]
  obtain ⟨entered, lead⟩ := lead_of_opening opens
  rw [← entered.tokens] at lead
  obtain ⟨spans, spans?, opened, crossed, closed⟩ := opened_of_entries verbatim lead ran
  have whole := entered.trans crossed
  rw [entered.tokens, tokens] at opened
  have closes : ∀ kind, kindAt? (scan text) last.index = some kind → kind = .closing := by
    intro kind stands
    rw [Cursor.isAtClose, Bool.or_eq_true, Cursor.isAtEnd_iff, Cursor.isAt_iff, whole.tokens,
      tokens, stands, Option.some.injEq] at closed
    exact closed.resolve_left (Nat.not_le.mpr (lt_length_of_kindAt? stands))
  have unbroken : kindAt? (scan text) last.index ≠ some .lineBreak := fun stands =>
    absurd (closes _ stands) (by decide)
  refine ⟨cursor.index, last.index, spans, spans?, ⟨front, ?_, ?_, closes, ?_, ?_, opened.precede,
    opened.broken, opened.trailed, opened.blank unbroken⟩, opened⟩
  · rw [← tokens, ← Cursor.kind?_eq]
    exact opens
  · rw [← tokens, ← whole.tokens]
    exact last.index_le_length
  · intro place before stands
    rcases Nat.lt_or_ge place cursor.index with padding | behind
    · rw [front.padding place (Nat.zero_le _) padding] at stands
      cases stands
    · rw [← tokens] at stands
      exact whole.kinds place _ behind before stands rfl
  · exact opened.inside

/-- The spans of a comment tile it. -/
theorem tiles_of_read (verbatim : dialect.OnlyVerbatim) {text : Text} {document : Document}
    (run : dialect.read text = .ok document) :
    ∃ opening close spans, document.asRead.entries.map Entry.span? = spans.map some ∧
      Tiles document.tokens opening close spans := by
  obtain ⟨opening, close, spans, spans?, tiles, _⟩ := opened_of_read verbatim run
  exact ⟨opening, close, spans, spans?, tiles⟩

end Dialect

end DocComment
