import DocComment.Proofs.Reading.Lines
import DocComment.Proofs.Reading.Taking

/-!
# The trail of a reader

Where every rule keeps payloads as they are written, the loop over the lines
takes one entry behind each line break.  `Trail` is that course of events, so
that what holds of it can be proved by induction and a course that was found can
be run (`heads_of_entries`, `Heads.run`).
-/

namespace DocComment

open Token

namespace Dialect

variable {dialect : Dialect} {cursor after : Cursor} {item : Entry} {items : List Entry}

/-- Entries that are read from the end of a line on, each behind a line break. -/
inductive Trail (dialect : Dialect) : Cursor → List Entry → Prop
  | closed {cursor : Cursor} (closes : cursor.isAtClose = true) : Trail dialect cursor []
  | ended {cursor : Cursor} (broken : cursor.isAt .lineBreak = true)
      (closes : cursor.advance.isAtClose = true) : Trail dialect cursor []
  | next {cursor after : Cursor} {item : Entry} {items : List Entry} (broken : cursor.isAt .lineBreak = true)
      (opens : cursor.advance.isAtClose = false) (run : entry dialect cursor.advance = .ok item after)
      (later : Trail dialect after items) : Trail dialect cursor (item :: items)

/-- Entries that are read from the first one on. -/
inductive Heads (dialect : Dialect) : Cursor → List Entry → Prop
  | closed {cursor : Cursor} (closes : cursor.isAtClose = true) : Heads dialect cursor []
  | first {cursor after : Cursor} {item : Entry} {items : List Entry} (opens : cursor.isAtClose = false)
      (run : entry dialect cursor = .ok item after) (later : Trail dialect after items) :
      Heads dialect cursor (item :: items)

theorem isAtClose_of_broken (broken : cursor.isAt .lineBreak = true) :
    cursor.isAtClose = false := by
  obtain ⟨passed, rest⟩ := cursor
  cases rest with
  | nil => cases broken
  | cons token rest =>
      rw [Cursor.isAt_of_rest rfl, beq_iff_eq] at broken
      rw [Cursor.isAtClose, Cursor.isAt_of_rest rfl, broken]
      rfl

/-- Behind a line break entries are read from the first one on. -/
theorem Heads.trail (broken : cursor.isAt .lineBreak = true)
    (heads : Heads dialect cursor.advance items) :
    Trail dialect cursor items := by
  cases heads with
  | closed closes => exact .ended broken closes
  | first opens run later => exact .next broken opens run later

/-- Behind a line break and an entry fewer tokens remain. -/
theorem length_lt_of_entry (verbatim : dialect.OnlyVerbatim)
    (broken : cursor.isAt .lineBreak = true) (run : entry dialect cursor.advance = .ok item after) :
    after.isAtLineEnd = true ∧ after.tokens = cursor.tokens ∧
    after.rest.length < cursor.rest.length := by
  obtain ⟨span, fills⟩ := fills_of_entry verbatim run
  have beyond := Cursor.index_lt_advance (beq_iff_eq.mp broken)
  have forward := fills.crosses.index_le
  have tokens := fills.crosses.tokens
  rw [Cursor.tokens_advance] at tokens
  refine ⟨fills.ends, tokens, ?_⟩
  rw [Cursor.length_rest, Cursor.length_rest, tokens]
  have within := after.index_le_length
  rw [tokens] at within
  omega

/-- The loop over the lines leaves a trail. -/
theorem trail_of_furtherEntries (verbatim : dialect.OnlyVerbatim) {bound : Nat}
    (enough : cursor.rest.length < bound) (ends : cursor.isAtLineEnd = true)
    (run : furtherEntries dialect bound cursor = .ok items after) : Trail dialect cursor items := by
  induction bound generalizing cursor items with
  | zero => exact absurd enough (Nat.not_lt_zero _)
  | succ bound ih =>
      cases round_of_furtherEntries run with
      | closed closes => exact .closed closes
      | ended broken closes => exact .ended broken closes
      | line broken opens taken ran =>
          obtain ⟨ended, -, shorter⟩ := length_lt_of_entry verbatim broken taken
          exact .next broken opens taken (ih (by omega) ended ran)
      | rest within => cases ends.symm.trans within

theorem heads_of_entries (verbatim : dialect.OnlyVerbatim)
    (run : entries dialect cursor = .ok items after) :
    Heads dialect cursor items := by
  rcases entries_eq_ok run with ⟨closes, rfl, -⟩ | ⟨opens, first, others, middle, taken, ran, rfl⟩
  · exact .closed closes
  · obtain ⟨span, fills⟩ := fills_of_entry verbatim taken
    exact .first opens taken (trail_of_furtherEntries verbatim (Nat.lt_succ_self _) fills.ends ran)

/-- The loop follows every trail. -/
theorem Trail.run (verbatim : dialect.OnlyVerbatim) (trail : Trail dialect cursor items)
    {bound : Nat} (enough : cursor.rest.length < bound) :
    ∃ after, furtherEntries dialect bound cursor = .ok items after := by
  induction trail generalizing bound with
  | @closed cursor closes =>
      obtain ⟨bound, rfl⟩ := Nat.exists_eq_add_of_lt enough
      refine ⟨cursor, ?_⟩
      rw [furtherEntries, Read.run_get_bind, if_pos closes]
      rfl
  | @ended cursor broken closes =>
      obtain ⟨bound, rfl⟩ := Nat.exists_eq_add_of_lt enough
      refine ⟨cursor.advance, ?_⟩
      rw [furtherEntries, Read.run_get_bind, isAtClose_of_broken broken, if_neg Bool.false_ne_true,
        Read.run_bind_of_ok (Read.run_accept .lineBreak cursor), broken,
        Cursor.accept_of_isAt broken,
        if_pos rfl, Read.run_get_bind, if_pos closes]
      rfl
  | @next cursor middle item items broken opens run later ih =>
      obtain ⟨-, -, shorter⟩ := length_lt_of_entry verbatim broken run
      obtain ⟨more, rfl⟩ := Nat.exists_eq_add_of_lt enough
      obtain ⟨after, ran⟩ := @ih (cursor.rest.length + more) (by omega)
      refine ⟨after, ?_⟩
      rw [furtherEntries, Read.run_get_bind, isAtClose_of_broken broken, if_neg Bool.false_ne_true,
        Read.run_bind_of_ok (Read.run_accept .lineBreak cursor), broken,
        Cursor.accept_of_isAt broken,
        if_pos rfl, Read.run_get_bind, opens, if_neg Bool.false_ne_true, Read.run_bind_of_ok run,
        Read.run_bind_of_ok ran]
      rfl

theorem Heads.run (verbatim : dialect.OnlyVerbatim) (heads : Heads dialect cursor items) :
    ∃ after, entries dialect cursor = .ok items after := by
  cases heads with
  | closed closes =>
      refine ⟨cursor, ?_⟩
      rw [entries, Read.run_get_bind, if_pos closes]
      rfl
  | first opens run later =>
      obtain ⟨after, ran⟩ := later.run verbatim (Nat.lt_succ_self _)
      refine ⟨after, ?_⟩
      rw [entries, Read.run_get_bind, opens, if_neg Bool.false_ne_true, Read.run_bind_of_ok run,
        Read.run_get_bind, Read.run_bind_of_ok ran]
      rfl

/-! ## Whole comments -/

/-- Where the first entry of a text may stand. -/
def firstPlace (text : Text) : Cursor :=
  (Cursor.ofTokens (scan text)).advance.accept .lineBreak

theorem heads_of_read (verbatim : dialect.OnlyVerbatim) {text : Text} {document : Document}
    (run : dialect.read text = .ok document) :
    Heads dialect (firstPlace text) document.comment.entries := by
  obtain ⟨-, items, last, ran, rfl⟩ := read_eq_ok run
  exact heads_of_entries verbatim ran

/-- A text whose trail was found is read. -/
theorem Heads.read (verbatim : dialect.OnlyVerbatim) {text : Text}
    (opens : (Cursor.ofTokens (scan text)).kind? = some .opening)
    (heads : Heads dialect (firstPlace text) items) :
    dialect.read text = .ok (.ofComment (.ofEntries items) (scan text)) := by
  obtain ⟨after, run⟩ := heads.run verbatim
  rw [firstPlace] at run
  obtain ⟨first, rest, stands⟩ :
      ∃ first rest, (Cursor.ofTokens (scan text)).rest = first :: rest := by
    cases stands : (Cursor.ofTokens (scan text)).rest with
    | nil =>
        rw [Cursor.kind?, stands] at opens
        cases opens
    | cons first rest => exact ⟨first, rest, rfl⟩
  have kind : first.kind = .opening := by
    rw [Cursor.kind?, stands] at opens
    exact Option.some.inj opens
  have ran : comment dialect (Cursor.ofTokens (scan text)) =
      .ok (.ofEntries items) (after.accept .closing) := by
    rw [comment, Read.run_bind_of_ok (Read.run_expect stands kind),
      Read.run_bind_of_ok (Read.run_accept .lineBreak _), Read.run_bind_of_ok run,
      Read.run_bind_of_ok (Read.run_accept .closing _)]
    rfl
  rw [Dialect.read, Read.valueAt, ran]
  rfl

/-- Every entry was read behind the padding of its line. -/
theorem exists_entry_of_trail (verbatim : dialect.OnlyVerbatim)
    (trail : Trail dialect cursor items) :
    ∀ item ∈ items, ∃ before after : Cursor, before.tokens = cursor.tokens ∧
      before.kind? ≠ some .padding ∧
      entry dialect before = .ok item after := by
  induction trail with
  | closed => exact nofun
  | ended => exact nofun
  | @next cursor after item items broken opens run later ih =>
      obtain ⟨-, tokens, -⟩ := length_lt_of_entry verbatim broken run
      have firm : cursor.advance.kind? ≠ some .padding := Cursor.kind?_skipPadding_ne _
      refine List.forall_mem_cons.mpr
        ⟨⟨cursor.advance, after, cursor.tokens_advance, firm, run⟩, ?_⟩
      rwa [tokens] at ih

theorem exists_entry_of_read (verbatim : dialect.OnlyVerbatim) {text : Text} {document : Document}
    (run : dialect.read text = .ok document) :
    ∀ item ∈ document.comment.entries, ∃ before after : Cursor, before.tokens = scan text ∧
      before.kind? ≠ some .padding ∧ entry dialect before = .ok item after := by
  have heads := heads_of_read verbatim run
  have tokens : (firstPlace text).tokens = scan text := by
    rw [firstPlace, Cursor.tokens_accept, Cursor.tokens_advance, Cursor.ofTokens,
      Cursor.tokens_placed]
  have firm : (firstPlace text).kind? ≠ some .padding := by
    rw [firstPlace, Cursor.accept]
    split
    · exact Cursor.kind?_skipPadding_ne _
    · exact Cursor.kind?_skipPadding_ne _
  generalize document.comment.entries = items at heads
  cases heads with
  | closed => exact fun _ mem => absurd mem List.not_mem_nil
  | first opens run later =>
      obtain ⟨span, fills⟩ := fills_of_entry verbatim run
      refine List.forall_mem_cons.mpr ⟨⟨_, _, tokens, firm, run⟩, ?_⟩
      have found := exists_entry_of_trail verbatim later
      rwa [fills.crosses.tokens, tokens] at found

end Dialect

end DocComment
