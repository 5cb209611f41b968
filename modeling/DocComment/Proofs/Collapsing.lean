import DocComment.Proofs.Reading.Collapsed
import DocComment.Proofs.RoundTrip

/-!
# Comments that are put on one line

Where a typed tag is all that a comment says, the comment on one line is read as that tag, with its
name and its subject.  Its description is kept exactly if no line begins with a star behind a blank
that is no padding: such a star is no decoration to the reader, but it is taken for one when the
lines are joined (`read_of_collapsed`).
-/

namespace DocComment

open Token

/-- A document with its entries as they were read is written on one line as its source is. -/
theorem Dialect.render_of_collapsed {dialect : Dialect} {text : Text} {document : Document}
    (forward : dialect.MovesForward) (run : dialect.read text = .ok document)
    (closed : ∃ token ∈ document.tokens, token.kind = .closing) :
    (document.withComment { document.comment with onOneLine := true }).render =
      .ok (Cleanup.onOneLine text) := by
  have same : ({ document.comment with onOneLine := true } : Comment).entries =
    document.comment.entries := rfl
  obtain ⟨begins, rendered⟩ := Dialect.render_of_sameEntries forward run same
  have closes : Cleanup.closer <:+: text := by
    obtain ⟨token, mem, kind⟩ := closed
    rw [Dialect.tokens_of_read run] at mem
    have piece := isPiece_of_mem_scan mem (by rw [kind]; decide)
    have within := text_infix_of_mem_scan mem
    rwa [piece.text_of_closing kind] at within
  rw [rendered, Cleanup.finish, if_neg (by simpa using begins.ne_nil)]
  exact congrArg (fun source => Except.ok (Cleanup.onOneLine source))
    (Cleanup.completeMarkers_of_closes begins closes)

/-- A typed tag that is all that a comment says is read again on one line, and its description
unless a star is lost. -/
theorem read_of_collapsed {text description : Text} {document : Document} {tag : Tag} {subject : Subject}
    (run : Dialect.plain.read text = .ok document) (closed : ∃ token ∈ document.tokens, token.kind = .closing)
    (quoteless : Quoteless document.tokens)
    (sole : document.comment.entries.filter (fun item => !item.isVoid) = [.tag tag])
    (typed : tag.payload = .typed subject description) :
    ∃ out again found description',
      (document.withComment { document.comment with onOneLine := true }).render = .ok out ∧ '\n' ∉ out ∧
        Dialect.plain.read out = .ok again ∧ again.comment.entries = [.tag found] ∧ found.name = tag.name ∧
          found.payload = .typed subject description' ∧
            (found.payload = tag.payload ↔
              ∀ line ∈ Text.lines (textOf (beforeClosing document.tokens)), Text.hasStrayStar line = false) := by
  have tokens := Dialect.tokens_of_read run
  rw [tokens] at quoteless
  obtain ⟨sections, fits⟩ := Dialect.exists_sections run closed sole typed
  obtain ⟨again, found, description', reading, entries, name, payload, kept⟩ := fits.read_onOneLine quoteless
  have forward : Dialect.plain.MovesForward := Dialect.plain_onlyVerbatim.movesForward
  refine ⟨_, again, found, description', Dialect.render_of_collapsed forward run closed, Cleanup.unbroken_onOneLine text,
    reading, entries, name, payload, ?_⟩
  simp only [List.any_eq_false, Bool.not_eq_true] at kept
  rw [payload, typed, tokens, Payload.typed.injEq, ← kept]
  exact and_iff_right rfl

/-- A blank line in front of the tag, and a description on two lines. -/
theorem read_of_collapsed_wrapped :
    let text := "/**\n *\n * @return int first\n *   second\n */".toList
    ∃ document out again found, Dialect.plain.read text = .ok document ∧
      (document.withComment { document.comment with onOneLine := true }).render = .ok out ∧ '\n' ∉ out ∧
        Dialect.plain.read out = .ok again ∧ again.comment.entries = [.tag found] ∧ found.name = "@return".toList ∧
          found.payload = .typed (.returned (.named "int".toList)) "first second".toList := by
  intro text
  let tag : Tag := ⟨"@return".toList, .typed (.returned (.named "int".toList)) "first second".toList, some ⟨4, 8⟩,
    some "first\n  second".toList⟩
  let document : Document := .ofComment (.ofEntries [.prose ⟨[], some ⟨2, 0⟩⟩, .tag tag]) (scan text)
  have run : Dialect.plain.read text = .ok document := by decide +kernel
  have closed : ∃ token ∈ document.tokens, token.kind = .closing := by decide +kernel
  have quoteless : Quoteless document.tokens := quoteless_scan (by decide) (by decide)
  obtain ⟨out, again, found, description', rendered, unbroken, reading, entries, name, -, kept⟩ :=
    @read_of_collapsed text _ document tag _ run closed quoteless (by decide +kernel) rfl
  have held := kept.mpr (by decide +kernel)
  exact ⟨document, out, again, found, run, rendered, unbroken, reading, entries, name, held⟩

/-- The star behind a no-break space belongs to the description, and on the one line it is lost. -/
theorem not_read_of_collapsed_stray :
    ¬ ∀ (text description : Text) (document : Document) (tag : Tag) (subject : Subject),
      Dialect.plain.read text = .ok document → (∃ token ∈ document.tokens, token.kind = .closing) →
        Quoteless document.tokens → document.comment.entries.filter (fun item => !item.isVoid) = [.tag tag] →
          tag.payload = .typed subject description →
            ∃ out again found, (document.withComment { document.comment with onOneLine := true }).render = .ok out ∧
              '\n' ∉ out ∧ Dialect.plain.read out = .ok again ∧ again.comment.entries = [.tag found] ∧
                found.name = tag.name ∧ found.payload = tag.payload := by
  intro all
  let text := "/**\n * @return int first\n\u00a0* second\n */".toList
  let tag : Tag := ⟨"@return".toList, .typed (.returned (.named "int".toList)) "first * second".toList, some ⟨3, 9⟩,
    some "first\n\u00a0* second".toList⟩
  let document : Document := .ofComment (.ofEntries [.tag tag]) (scan text)
  have run : Dialect.plain.read text = .ok document := by decide +kernel
  have closed : ∃ token ∈ document.tokens, token.kind = .closing := by decide +kernel
  have quoteless : Quoteless document.tokens := quoteless_scan (by decide) (by decide)
  obtain ⟨out, again, found, rendered, -, reading, entries, -, payload⟩ :=
    all text _ document tag _ run closed quoteless (by decide +kernel) rfl
  let kept : Tag := ⟨"@return".toList, .typed (.returned (.named "int".toList)) "first second".toList, some ⟨2, 7⟩,
    none⟩
  have rendered' : (document.withComment { document.comment with onOneLine := true }).render =
      .ok "/** @return int first second */".toList := by decide +kernel
  have reading' : Dialect.plain.read "/** @return int first second */".toList =
      .ok (.ofComment (.ofEntries [.tag kept]) (scan "/** @return int first second */".toList)) := by decide +kernel
  cases rendered'.symm.trans rendered
  cases reading'.symm.trans reading
  have same : kept = found := Entry.tag.inj (List.cons.inj entries).1
  rw [← same] at payload
  exact absurd payload (by decide +kernel)

end DocComment
