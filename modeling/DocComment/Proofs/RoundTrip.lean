import DocComment.Proofs.Rendering.InOrder
import DocComment.Proofs.Rendering.Markers

/-!
# Reading and writing

A document that was read and not changed is written as it was read; only a
closing marker that is missing is added (`render_of_read`).
-/

namespace DocComment

open Token

namespace Layout

variable {document : Document} {spans : List Span}

/-- Nothing of an unchanged document is left out. -/
theorem removedSpans_unchanged (spans? : document.asRead.entries.map Entry.span? = spans.map some)
    (precede : spans.Pairwise Span.Precedes)
    (unchanged : document.comment.entries = document.asRead.entries) :
    removedSpans document = .ok [] := by
  have none : (spans.filter fun span => !carries document.comment.entries span) = [] := by
    rw [List.filter_eq_nil_iff]
    intro span mem
    rw [unchanged, Bool.not_eq_true', Bool.not_eq_false, carries_iff, filterMap_span? spans?]
    exact mem
  rw [removedSpans_eq spans? precede, leftOut, none]
  rfl

theorem revisedFrom_nil (place : Nat) (tokens : List Token) :
    revisedFrom [] [] place tokens = Token.textOf tokens := by
  induction tokens generalizing place with
  | nil => rfl
  | cons token rest ih =>
      rw [revisedFrom, ih]
      rfl

/-- An unchanged document is laid out as its source. -/
theorem laidOut_unchanged (spans? : document.asRead.entries.map Entry.span? = spans.map some)
    (precede : spans.Pairwise Span.Precedes)
    (unchanged : document.comment.entries = document.asRead.entries)
    (within : ∀ span ∈ spans, span.stop ≤ document.tokens.length) :
    document.laidOut [] = (document.source, false) := by
  have inOrder : InOrder document [] (start []).place document.comment.entries spans := by
    rw [unchanged]
    exact ⟨spans?, precede, fun _ _ => Nat.zero_le _, within, by simp⟩
  have text := text_of_placeAll spans? precede inOrder rfl (Nat.zero_le _)
  have edited := edited_of_placeAll spans? precede inOrder rfl
  have untouched : document.comment.entries.filterMap document.replacement? = [] := by
    rw [unchanged, List.filterMap_eq_nil_iff]
    exact fun entry mem => if_pos mem
  have unedited : (placeAll document [] (start []) document.comment.entries).2.edited = false := by
    rw [edited, unchanged]
    simp [start]
  have wholeTail : tailStart document.tokens
      (placeAll document [] (start []) document.comment.entries).2 =
        (placeAll document [] (start []) document.comment.entries).2.place := by
    rw [tailStart, unedited]
    rfl
  rw [untouched, revisedFrom_nil] at text
  refine Prod.ext ?_ unedited
  rw [Document.source]
  refine Eq.trans ?_ text
  change _ ++ tail document [] _ = _
  rw [tail, wholeTail]

end Layout

/-- A document that was read is written from its source as long as its entries are
those that were read. -/
theorem Dialect.render_of_sameEntries {dialect : Dialect} {text : Text} {document : Document}
    (forward : dialect.MovesForward) (run : dialect.read text = .ok document) {comment : Comment}
    (same : comment.entries = document.comment.entries) :
    text.Opens ∧ (document.withComment comment).render =
      .ok (Cleanup.finish false comment.onOneLine text) := by
  obtain ⟨spans, spans?, precede, within⟩ := Dialect.ordered_of_read forward run
  obtain ⟨place, padded, opens⟩ := Dialect.opening_of_read run
  have tokens := Dialect.tokens_of_read run
  have unchanged : comment.entries = document.asRead.entries :=
    same.trans (congrArg _ (Dialect.comment_of_read run))
  rw [tokens] at padded opens
  have source : document.source = text := by rw [Document.source, tokens, textOf_scan]
  have nonempty : document.tokens ≠ [] := by
    rw [tokens]
    exact List.ne_nil_of_length_pos (Nat.zero_lt_of_lt (lt_length_of_kindAt? opens))
  have void : (!document.asRead.isVoid && comment.isVoid) = false := by
    rw [Comment.isVoid, Comment.isVoid, unchanged, Bool.not_and_self]
  have laidOut :=
    @Layout.laidOut_unchanged (document.withComment comment) spans spans? precede unchanged within
  refine ⟨opens_of_kindAt? padded opens, ?_⟩
  rw [@Document.render_of_present (document.withComment comment) _ nonempty void
    (Layout.removedSpans_unchanged spans? precede unchanged), laidOut]
  exact congrArg (fun source => Except.ok (Cleanup.finish false comment.onOneLine source)) source

/-- A document that was read is written with the markers that are missing. -/
theorem Dialect.render_of_read_eq {dialect : Dialect} {text : Text} {document : Document}
    (forward : dialect.MovesForward) (run : dialect.read text = .ok document) :
    text.Opens ∧ document.render = .ok (Cleanup.completeMarkers text) := by
  obtain ⟨begins, rendered⟩ := Dialect.render_of_sameEntries forward run rfl
  refine ⟨begins, rendered.trans ?_⟩
  rw [Dialect.comment_of_read run, Dialect.onOneLine_of_read run, Cleanup.finish_unedited begins]

/-- A document is written as it was read, with a closing marker when it had none. -/
theorem render_of_read {dialect : Dialect} {text : Text} {document : Document}
    (forward : dialect.MovesForward) (run : dialect.read text = .ok document) :
    (Cleanup.closer <:+: text → document.render = .ok text) ∧
      (¬ Cleanup.closer <:+: text → '\n' ∈ text →
        document.render = .ok (text ++ "\n */".toList)) ∧
      (¬ Cleanup.closer <:+: text → '\n' ∉ text →
        document.render = .ok (text ++ " */".toList)) := by
  obtain ⟨begins, rendered⟩ := Dialect.render_of_read_eq forward run
  rw [rendered, Cleanup.completeMarkers_eq begins]
  refine ⟨fun closes => ?_, fun lacks broken => ?_, fun lacks whole => ?_⟩
  · rw [if_pos closes]
  · rw [if_neg lacks, if_pos broken, List.append_assoc]
    rfl
  · rw [if_neg lacks, if_neg whole]
    rfl

/-- A rule that takes nothing, and a comment that is not closed. -/
theorem render_of_read_unclosed :
    let dialect : Dialect := ⟨[⟨fun _ => true, return .plain []⟩], Naming.plain⟩
    ∃ document, dialect.read "/** @a b c".toList = .ok document ∧
      document.render = .ok "/** @a b c */".toList := by
  intro dialect
  have run : dialect.read "/** @a b c".toList = .ok _ := rfl
  have forward : dialect.MovesForward := by
    intro rule mem cursor payload after taken
    rw [List.mem_singleton.mp mem] at taken
    cases taken
    exact ⟨rfl, Nat.le_refl _⟩
  exact ⟨_, run, (render_of_read forward run).2.2 (by decide) (by decide)⟩

end DocComment
