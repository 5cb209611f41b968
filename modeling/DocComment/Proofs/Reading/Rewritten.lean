import DocComment.Proofs.Reading.Alone
import DocComment.Proofs.Reading.Exchange

/-!
# Reading a tag that was written anew

A tag that is written into a source in the place of another one is read there
as it is read in a comment of its own, when what stands behind it ends its line
(`read_of_rewritten`).
-/

namespace DocComment

open Token

namespace Token

/-- A text that begins with a marker of a tag. -/
def BeginsTag (text : Text) : Prop :=
  firstKind? text = some .tag

variable {text : Text}

theorem BeginsTag.exists_first (begins : BeginsTag text) :
    ∃ first behind, scan text = first :: behind ∧ first.kind = .tag ∧ text.head? = some '@' := by
  obtain ⟨first, head, kind⟩ := Option.map_eq_some_iff.mp begins
  obtain ⟨behind, split⟩ := List.head?_eq_some_iff.mp head
  refine ⟨first, behind, split, kind, ?_⟩
  have piece := isPiece_of_mem_scan (split ▸ List.mem_cons_self) (by rw [kind]; decide)
  have marker := piece.head?_of_tag kind
  have whole := textOf_scan text
  rw [split, textOf_cons] at whole
  rw [← whole, List.head?_append, marker]
  rfl

theorem BeginsTag.parted (begins : BeginsTag text) : text.Parted := by
  obtain ⟨first, behind, -, -, head⟩ := begins.exists_first
  constructor
  case word =>
    intro c stands
    rw [head] at stands
    cases stands
    decide
  case slash =>
    rw [head]
    decide

/-- In front of a marker of a tag all tokens end. -/
theorem scan_append_of_beginsTag {place : Nat} (old : BeginsTag (textOf ((scan text).drop place)))
    {new : Text} (begins : BeginsTag new) :
    scan (textOf ((scan text).take place) ++ new) = (scan text).take place ++ scan new := by
  have whole : scan (textOf ((scan text).take place) ++ textOf ((scan text).drop place)) =
      (scan text).take place ++ scan (textOf ((scan text).drop place)) := by
    rw [← textOf_append, List.take_append_drop, textOf_scan, scan_textOf_drop,
      List.take_append_drop]
  obtain ⟨_, _, -, -, head⟩ := begins.exists_first
  obtain ⟨_, _, -, -, was⟩ := old.exists_first
  refine scan_append_of_seam whole rfl old.parted ?_
  constructor
  case parted => exact begins.parted
  case known =>
    rw [show firstKind? new = some .tag from begins]
    decide
  case padding =>
    intro c stands pads
    rw [head] at stands
    cases stands
    cases pads
  case star =>
    intro stands
    rw [head] at stands
    cases stands
  case carriage =>
    intro stands
    rw [head] at stands
    cases stands
  case quote =>
    rintro (empty | stands)
    · rw [empty] at was
      cases was
    · rw [was] at stands
      cases stands

end Token

namespace Dialect

open Cursor Payload.Grammar

variable {dialect : Dialect} {text body tail : Text} {tokens back : List Token} {item : Entry}

/-- A text from which a tag is read in front of the last line of a comment. -/
structure WritesTag (dialect : Dialect) (body : Text) (tokens : List Token) (item : Entry) : Prop where
  cut : scan (body ++ closingLine) = tokens ++ lastLine
  covers : textOf tokens = body
  tag : tokens.head?.map Token.kind = some .tag
  firm : ∀ token, tokens.getLast? = some token → token.kind ≠ .padding
  run : ∃ here after : Cursor, here.rest = tokens ++ lastLine ∧ entry dialect here = .ok item after ∧
    after.rest = lastLine

/-- What stands behind a tag that was written: the end of its line. -/
structure EndsTag (body : Text) (tokens : List Token) (tail : Text) (back : List Token) : Prop where
  seam : Seam body tokens closingLine tail
  padded : ∃ padding, ArePadding padding ∧ scan tail = padding ++ back
  ends : EndLine back
  proper : back ≠ []

theorem WritesTag.scan_append (writes : WritesTag dialect body tokens item)
    (ends : EndsTag body tokens tail back) :
    scan (body ++ tail) = tokens ++ scan tail :=
  scan_append_of_seam writes.cut writes.covers (parted_feed _) ends.seam

theorem WritesTag.begins (writes : WritesTag dialect body tokens item) : BeginsTag body := by
  have same := scan_of_append writes.cut writes.covers (parted_feed _)
  rw [BeginsTag, firstKind?, same]
  exact writes.tag

/-- A tag that was written is read in front of every end of a line that does not go
on with its description. -/
theorem WritesTag.reads (writes : WritesTag dialect body tokens item)
    (verbatim : dialect.OnlyVerbatim)
    (names : dialect.naming.NamesClasses) (ends : EndsTag body tokens tail back)
    (halts : item.IsDescribed → Halts lastLine back) {cursor : Cursor}
    (stands : cursor.rest = scan (body ++ tail)) :
    ∃ found after items, entry dialect cursor = .ok found after ∧ Trail dialect after items ∧
      found.unplaced = item.unplaced := by
  obtain ⟨here, after, rest, run, ended⟩ := writes.run
  obtain ⟨padding, soft, split⟩ := ends.padded
  have marks : ∀ token ∈ here.rest, token.kind = .ampersand →
      token.text = ['&'] := fun token mem kind =>
    (isPiece_of_mem_scan (writes.cut ▸ rest ▸ mem) (by rw [kind]; decide)).text_of_ampersand kind
  have closes : Closes lastLine back :=
    { near := fun token head => Or.inl (by cases head; rfl)
      far := ends.ends
      proper := ends.proper
      encloses := Or.inl ⟨_, rfl, rfl⟩ }
  have sharing : Sharing lastLine back tokens here cursor :=
    { near := ⟨[], nofun, rest⟩
      far := ⟨padding, soft, by rw [stands, writes.scan_append ends, split]⟩
      firm := writes.firm }
  rcases run_entry_of_sharing verbatim closes sharing marks halts run ended with
    ⟨found, last, ran, same, whole | ⟨unbroken, -⟩⟩ | ⟨empty, -⟩
  · obtain ⟨items, trail⟩ :=
      exists_trail verbatim names (isAtLineEnd_of_endLine (whole ▸ ends.ends))
    exact ⟨found, last, items, ran, trail, same⟩
  · exact absurd rfl (unbroken _ rfl)
  · cases empty

/--
A tag that is written in the place of another one is read at the same place of
the list, and as it is read in a comment of its own.
-/
theorem read_of_rewritten (verbatim : dialect.OnlyVerbatim) (names : dialect.naming.NamesClasses)
    {document : Document} (run : dialect.read text = .ok document) {before later : List Entry}
    {old : Entry} {span : Span} (entries : document.comment.entries = before ++ old :: later)
    (span? : old.span? = some span) (begins : BeginsTag (textOf ((scan text).drop span.start)))
    (writes : WritesTag dialect body tokens item)
    (ends : EndsTag body tokens tail back) (halts : item.IsDescribed → Halts lastLine back) :
    ∃ printed found, dialect.read (textOf ((scan text).take span.start) ++ (body ++ tail)) =
      .ok printed ∧
      printed.comment.entries[before.length]? = some found ∧ found.unplaced = item.unplaced := by
  obtain ⟨first, behind, near, tag, -⟩ := begins.exists_first
  rw [scan_textOf_drop] at near
  have split : scan text = (scan text).take span.start ++ first :: behind := by
    rw [← near, List.take_append_drop]
  have new : BeginsTag (body ++ tail) := by
    rw [BeginsTag, firstKind?, writes.scan_append ends]
    obtain ⟨token, head, kind⟩ := Option.map_eq_some_iff.mp writes.tag
    obtain ⟨more, rfl⟩ := List.head?_eq_some_iff.mp head
    exact congrArg some kind
  obtain ⟨first', behind', near', tag', -⟩ := new.exists_first
  have far : scan (textOf ((scan text).take span.start) ++ (body ++ tail)) =
      (scan text).take span.start ++ first' :: behind' := by
    rw [scan_append_of_beginsTag begins new, near']
  exact read_of_exchange verbatim run entries span? split tag far tag' fun cursor stands =>
    writes.reads verbatim names ends halts (stands.trans near'.symm)

end Dialect

end DocComment
