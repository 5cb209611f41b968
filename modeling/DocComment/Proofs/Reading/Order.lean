import DocComment.Proofs.Reading.Entry

/-!
# Entries stand in their order

Every entry that was read has a span, and the spans of a comment follow one
another in the source (`ordered_of_read`).  The invariant of the loop over the
lines is `Dialect.Ordered`; the only entries without tokens are blank lines,
and a line break separates them from the entry in front.
-/

namespace DocComment

open Token

namespace Span

/-- The first span starts in front of the second and does not reach into it. -/
def Precedes (first second : Span) : Prop :=
  first.start < second.start ∧ first.stop ≤ second.start

/-- Of two spans of a comment one precedes the other. -/
theorem precedes_or_precedes {spans : List Span} (precede : spans.Pairwise Precedes)
    {first second : Span} (one : first ∈ spans) (other : second ∈ spans) (apart : first ≠ second) :
    first.Precedes second ∨ second.Precedes first := by
  induction spans with
  | nil => simp at one
  | cons span spans ih =>
      obtain ⟨front, later⟩ := List.pairwise_cons.mp precede
      rcases List.mem_cons.mp one with rfl | behind
      · rcases List.mem_cons.mp other with rfl | among
        · exact absurd rfl apart
        · exact Or.inl (front second among)
      · rcases List.mem_cons.mp other with rfl | among
        · exact Or.inr (front first behind)
        · exact ih later behind among

/-- No two spans of a comment share a place. -/
theorem eq_of_contains {spans : List Span} (precede : spans.Pairwise Precedes)
    {first second : Span} (one : first ∈ spans) (other : second ∈ spans) {place : Nat}
    (holds : first.contains place = true) (shares : second.contains place = true) :
    first = second := by
  rw [contains_iff] at holds shares
  rcases Decidable.em (first = second) with same | apart
  · exact same
  · rcases precedes_or_precedes precede one other apart with ⟨_, low⟩ | ⟨_, low⟩ <;> omega

end Span

namespace Dialect

/-- Entries that were read from one cursor to another stand at the given spans. -/
structure Ordered (before after : Cursor) (found : List Entry) (spans : List Span) : Prop where
  tokens : after.tokens = before.tokens
  index_le : before.index ≤ after.index
  spans? : found.map Entry.span? = spans.map some
  precede : spans.Pairwise Span.Precedes
  start_ge : ∀ span ∈ spans, before.index ≤ span.start
  stop_le : ∀ span ∈ spans, span.stop ≤ after.index

namespace Ordered

variable {before middle after : Cursor} {first : Entry} {found : List Entry} {span : Span}
  {spans : List Span}

theorem nil (before : Cursor) : Ordered before before [] [] where
  tokens := rfl
  index_le := Nat.le_refl _
  spans? := rfl
  precede := List.Pairwise.nil
  start_ge := by simp
  stop_le := by simp

/-- Entries that were read further on were also read from here on. -/
theorem of_index_le (ordered : Ordered middle after found spans)
    (tokens : middle.tokens = before.tokens) (index_le : before.index ≤ middle.index) :
    Ordered before after found spans where
  tokens := ordered.tokens.trans tokens
  index_le := Nat.le_trans index_le ordered.index_le
  spans? := ordered.spans?
  precede := ordered.precede
  start_ge other mem := Nat.le_trans index_le (ordered.start_ge other mem)
  stop_le := ordered.stop_le

theorem cons (stands : Stands before middle first span)
    (later : Ordered middle after found spans)
    (beyond : middle.isAtLineEnd = true → ∀ other ∈ spans, middle.index < other.start) :
    Ordered before after (first :: found) (span :: spans) := by
  have forward : before.index ≤ middle.index := by
    have low := span.start_le_stop
    have high := stands.stop_le
    rw [stands.start] at low
    omega
  refine ⟨later.tokens.trans stands.tokens, Nat.le_trans forward later.index_le, ?_, ?_, ?_, ?_⟩
  · rw [List.map_cons, List.map_cons, stands.span?, later.spans?]
  · refine List.pairwise_cons.mpr ⟨fun other mem => ⟨?_, ?_⟩, later.precede⟩
    · rw [stands.start]
      rcases stands.moves with moved | ends
      · exact Nat.lt_of_lt_of_le moved (later.start_ge other mem)
      · exact Nat.lt_of_le_of_lt forward (beyond ends other mem)
    · exact Nat.le_trans stands.stop_le (later.start_ge other mem)
  · intro other mem
    rcases List.mem_cons.mp mem with rfl | mem
    · exact Nat.le_of_eq stands.start.symm
    · exact Nat.le_trans forward (later.start_ge other mem)
  · intro other mem
    rcases List.mem_cons.mp mem with rfl | mem
    · exact Nat.le_trans stands.stop_le later.index_le
    · exact later.stop_le other mem

end Ordered

variable {dialect : Dialect} {cursor after : Cursor}

/-- At the end of a line the next entry starts behind the line break. -/
theorem ordered_of_furtherEntries (forward : dialect.MovesForward) {bound : Nat}
    {found : List Entry} (run : furtherEntries dialect bound cursor = .ok found after) :
    ∃ spans, Ordered cursor after found spans ∧
      (cursor.isAtLineEnd = true → ∀ span ∈ spans, cursor.index < span.start) := by
  induction bound generalizing cursor found with
  | zero =>
      cases run
      exact ⟨[], .nil _, by simp⟩
  | succ bound ih =>
      cases round_of_furtherEntries run with
      | closed => exact ⟨[], .nil _, by simp⟩
      | ended broken =>
          have beyond := Cursor.index_lt_advance (beq_iff_eq.mp broken)
          exact ⟨[], (Ordered.nil _).of_index_le cursor.tokens_advance
            (Nat.le_of_lt beyond), by simp⟩
      | line broken opens taken ran =>
          have beyond := Cursor.index_lt_advance (beq_iff_eq.mp broken)
          obtain ⟨span, stands⟩ := stands_of_entry forward taken
          obtain ⟨spans, later, apart⟩ := ih ran
          have whole := Ordered.cons stands later apart
          refine ⟨_, whole.of_index_le cursor.tokens_advance (Nat.le_of_lt beyond),
            fun _ other mem => ?_⟩
          exact Nat.lt_of_lt_of_le beyond (whole.start_ge other mem)
      | rest within taken ran =>
          obtain ⟨span, stands⟩ := stands_of_prose taken
          obtain ⟨spans, later, apart⟩ := ih ran
          exact ⟨_, Ordered.cons stands later apart, fun ends => by cases ends.symm.trans within⟩

theorem ordered_of_entries (forward : dialect.MovesForward) {found : List Entry}
    (run : entries dialect cursor = .ok found after) :
    ∃ spans, Ordered cursor after found spans := by
  rcases entries_eq_ok run with ⟨-, rfl, rfl⟩ | ⟨-, first, others, middle, taken, ran, rfl⟩
  · exact ⟨[], .nil _⟩
  · obtain ⟨span, stands⟩ := stands_of_entry forward taken
    obtain ⟨spans, later, apart⟩ := ordered_of_furtherEntries forward ran
    exact ⟨_, Ordered.cons stands later apart⟩

/-! ## Whole comments -/

variable {text : Text} {document : Document}

theorem comment_eq_ok {found : Comment} (run : comment dialect cursor = .ok found after) :
    cursor.kind? = some .opening ∧
      ∃ items last, entries dialect (cursor.advance.accept .lineBreak) = .ok items last ∧
        found = .ofEntries items := by
  obtain ⟨_, _, expected, run⟩ := Read.bind_eq_ok.mp run
  obtain ⟨opens, _, rfl⟩ := Read.expect_eq_ok expected
  rw [Read.run_bind_of_ok (Read.run_accept _ _)] at run
  obtain ⟨items, last, ran, run⟩ := Read.bind_eq_ok.mp run
  rw [Read.run_bind_of_ok (Read.run_accept _ _)] at run
  cases run
  exact ⟨opens, items, last, ran, rfl⟩

theorem read_eq_ok (run : dialect.read text = .ok document) :
    (Cursor.ofTokens (scan text)).kind? = some .opening ∧
      ∃ items last,
        entries dialect ((Cursor.ofTokens (scan text)).advance.accept .lineBreak) = .ok items last ∧
          document = .ofComment (.ofEntries items) (scan text) := by
  unfold Dialect.read Read.valueAt at run
  dsimp only at run
  cases ran : comment dialect (Cursor.ofTokens (scan text)) with
  | ok found after =>
      rw [ran] at run
      cases run
      obtain ⟨opens, items, last, taken, rfl⟩ := comment_eq_ok ran
      exact ⟨opens, items, last, taken, rfl⟩
  | error failure after =>
      rw [ran] at run
      cases run

theorem tokens_of_read (run : dialect.read text = .ok document) : document.tokens = scan text := by
  obtain ⟨_, _, _, _, rfl⟩ := read_eq_ok run
  rfl

theorem comment_of_read (run : dialect.read text = .ok document) :
    document.comment = document.asRead := by
  obtain ⟨_, _, _, _, rfl⟩ := read_eq_ok run
  rfl

theorem onOneLine_of_read (run : dialect.read text = .ok document) :
    document.asRead.onOneLine = false := by
  obtain ⟨_, _, _, _, rfl⟩ := read_eq_ok run
  rfl

/-- Only padding stands in front of the opening marker. -/
theorem opening_of_read (run : dialect.read text = .ok document) :
    ∃ place, Padded document.tokens 0 place ∧ kindAt? document.tokens place = some .opening := by
  obtain ⟨opens, items, last, _, rfl⟩ := read_eq_ok run
  rw [Cursor.kind?_eq, Cursor.ofTokens, Cursor.tokens_placed] at opens
  exact ⟨_, Cursor.padded_ofTokens (scan text), opens⟩

/-- The entries of a comment stand one behind the other within its tokens. -/
theorem ordered_of_read (forward : dialect.MovesForward)
    (run : dialect.read text = .ok document) :
    ∃ spans : List Span, document.asRead.entries.map Entry.span? = spans.map some ∧
      spans.Pairwise Span.Precedes ∧ ∀ span ∈ spans, span.stop ≤ document.tokens.length := by
  obtain ⟨_, items, last, ran, rfl⟩ := read_eq_ok run
  obtain ⟨spans, ordered⟩ := ordered_of_entries forward ran
  refine ⟨spans, ordered.spans?, ordered.precede, fun span mem => ?_⟩
  have tokens : last.tokens = scan text := by
    rw [ordered.tokens, Cursor.tokens_accept, Cursor.tokens_advance, Cursor.ofTokens,
      Cursor.tokens_placed]
  have within := last.index_le_length
  rw [tokens] at within
  exact Nat.le_trans (ordered.stop_le span mem) within

end Dialect

end DocComment
