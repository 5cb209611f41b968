import DocComment.Proofs.Reading.Rewritten

/-!
# Line ends in texts

Where a line ends in a text and whether a description goes on behind that
end is seen from a few characters (`exists_of_endLine`, `continues_eq_false_iff`).
-/

namespace DocComment

open Token

namespace Token

variable {text rest : Text}

/-- The text of a line break without the decoration behind it. -/
def IsFeed (broken : Text) : Prop :=
  broken = ['\n'] ∨ broken = ['\r', '\n']

/-- What a line holds behind its decoration and the padding after that. -/
def afterDecoration (text : Text) : Text :=
  (text.drop (decorationLength text)).dropWhile isPadding

theorem firstKind?_of_cut {c : Char} {kind : Kind} {length : Nat} (cut : Cut c rest kind length)
    (known : kind ≠ .other) : firstKind? (c :: rest) = some kind := by
  rw [firstKind?_cons, piece_of_cut cut known]

theorem exists_cut_of_firstKind? {kind : Kind} (first : firstKind? text = some kind) :
    ∃ c rest length, text = c :: rest ∧ Cut c rest kind length := by
  cases text with
  | nil => cases first
  | cons c rest =>
      rw [firstKind?_cons] at first
      have same : (piece c rest).1 = kind := Option.some.inj first
      exact ⟨c, rest, (piece c rest).2, rfl, cut_of_piece (Prod.ext same rfl)⟩

theorem firstKind?_feed {broken : Text} (feed : IsFeed broken) (rest : Text) :
    firstKind? (broken ++ rest) = some .lineBreak := by
  rcases feed with rfl | rfl
  · exact firstKind?_of_cut (.feed rest) (by decide)
  · exact firstKind?_of_cut (.carriage rest) (by decide)

theorem firstKind?_closer (rest : Text) : firstKind? (Cleanup.closer ++ rest) = some .closing :=
  firstKind?_of_cut (.closing rest) (by decide)

theorem exists_of_lineBreak (first : firstKind? text = some .lineBreak) :
    ∃ broken rest, text = broken ++ rest ∧ IsFeed broken := by
  obtain ⟨c, rest, length, rfl, cut⟩ := exists_cut_of_firstKind? first
  cases cut with
  | feed => exact ⟨['\n'], rest, rfl, .inl rfl⟩
  | carriage more => exact ⟨['\r', '\n'], more, rfl, .inr rfl⟩
  | mark _ marks => exact nomatch Kind.isMark_of_markKind? marks

theorem exists_of_closing (first : firstKind? text = some .closing) :
    ∃ rest, text = Cleanup.closer ++ rest := by
  obtain ⟨c, rest, length, rfl, cut⟩ := exists_cut_of_firstKind? first
  cases cut with
  | closing more => exact ⟨more, rfl⟩
  | mark _ marks => exact nomatch Kind.isMark_of_markKind? marks

theorem exists_of_tag (first : firstKind? text = some .tag) :
    ∃ d rest, text = '@' :: d :: rest ∧ isNameStart d = true := by
  obtain ⟨c, rest, length, rfl, cut⟩ := exists_cut_of_firstKind? first
  cases cut with
  | tag more starts => exact ⟨_, more, rfl, starts⟩
  | mark _ marks => exact nomatch Kind.isMark_of_markKind? marks

/-- A line ends in front of nothing, a line feed or the closing marker. -/
theorem exists_of_endLine (ends : EndLine (scan text)) :
    text = [] ∨ (∃ broken rest, text = broken ++ rest ∧ IsFeed broken) ∨
      ∃ rest, text = Cleanup.closer ++ rest := by
  cases first : (scan text).head? with
  | none => exact .inl (by rw [← textOf_scan text, List.head?_eq_none_iff.mp first]; rfl)
  | some token =>
      have kind : firstKind? text = some token.kind := congrArg (Option.map Token.kind) first
      rcases ends token first with broken | closed
      · exact .inr (.inl (exists_of_lineBreak (kind.trans (congrArg some broken))))
      · exact .inr (.inr (exists_of_closing (kind.trans (congrArg some closed))))

theorem endLine_of_firstKind?
    (ends : firstKind? text = some .lineBreak ∨ firstKind? text = some .closing) :
    EndLine (scan text) := by
  intro token head
  have kind : firstKind? text = some token.kind := congrArg (Option.map Token.kind) head
  rw [kind, Option.some.injEq, Option.some.injEq] at ends
  exact ends

/-- A line break is one token, and behind its decoration the scanner goes on as at a start. -/
theorem scan_feed_append {broken : Text} (feed : IsFeed broken) (rest : Text) :
    ∃ taken, scan (broken ++ rest) =
      ⟨.lineBreak, taken⟩ :: scan (rest.drop (decorationLength rest)) := by
  rcases feed with rfl | rfl
  · exact ⟨_, scan_feed rest⟩
  · have split : rest.take (decorationLength rest) ++ rest.drop (decorationLength rest) = rest :=
      List.take_append_drop _ _
    have cut :
        piece '\r' (('\n' :: rest.take (decorationLength rest)) ++
          rest.drop (decorationLength rest)) =
        (.lineBreak, ('\n' :: rest.take (decorationLength rest)).length) := by
      rw [List.cons_append, split, piece_of_cut (.carriage rest) (by decide), List.length_cons,
        List.length_take, Nat.min_eq_left (decorationLength_le rest)]
    have scanned := scan_append cut (by decide)
    rw [List.cons_append, split] at scanned
    exact ⟨_, scanned⟩

/-! ## Where a description ends -/

/-- Whether a line that begins like the text is no part of a description. -/
def Halting (text : Text) : Prop :=
  EndLine (scan text) ∨ BeginsTag text

/-- Two characters tell whether a description ends in front of a text. -/
theorem halting_cons_cons_iff {c d : Char} :
    Halting (c :: d :: rest) ↔
      c = '\n' ∨ (c = '\r' ∧ d = '\n') ∨ (c = '*' ∧ d = '/') ∨
      (c = '@' ∧ isNameStart d = true) := by
  constructor
  · rintro (ends | tag)
    · rcases exists_of_endLine ends with empty | ⟨broken, more, same, rfl | rfl⟩ | ⟨more, same⟩
      · cases empty
      · cases same
        exact .inl rfl
      · cases same
        exact .inr (.inl ⟨rfl, rfl⟩)
      · cases same
        exact .inr (.inr (.inl ⟨rfl, rfl⟩))
    · obtain ⟨e, more, same, starts⟩ := exists_of_tag tag
      cases same
      exact .inr (.inr (.inr ⟨rfl, starts⟩))
  · rintro (rfl | ⟨rfl, rfl⟩ | ⟨rfl, rfl⟩ | ⟨rfl, starts⟩)
    · exact .inl (endLine_of_firstKind? (.inl (firstKind?_feed (.inl rfl) (d :: rest))))
    · exact .inl (endLine_of_firstKind? (.inl (firstKind?_feed (.inr rfl) rest)))
    · exact .inl (endLine_of_firstKind? (.inr (firstKind?_closer rest)))
    · exact .inr (firstKind?_of_cut (.tag rest starts) (by decide))

theorem eq_feed_of_halting {c : Char} (halting : Halting [c]) : c = '\n' := by
  rcases halting with ends | tag
  · rcases exists_of_endLine ends with empty | ⟨broken, more, same, rfl | rfl⟩ | ⟨more, same⟩
    · cases empty
    · cases same
      rfl
    · cases same
    · cases same
  · obtain ⟨d, more, same, -⟩ := exists_of_tag tag
    cases same

/-- The text begins with a line break behind which no description goes on, or with none. -/
def HaltsBehind (text : Text) : Prop :=
  ∀ broken rest, text = broken ++ rest → IsFeed broken → Halting (afterDecoration rest)

end Token

namespace Payload.Grammar

open Cursor

variable {cursor : Cursor} {rest : Text}

/-- Where a line ends in a text, the text behind it tells whether a description goes on. -/
theorem continues_eq_false_iff (stands : cursor.rest = scan rest) (ends : EndLine (scan rest)) :
    continues cursor = false ↔ HaltsBehind rest := by
  have behind : ∀ broken more, rest = broken ++ more → IsFeed broken →
      cursor.isAt .lineBreak = true ∧ cursor.advance.kind? = firstKind? (afterDecoration more) := by
    rintro broken more rfl feed
    obtain ⟨taken, scanned⟩ := scan_feed_append feed more
    rw [scanned] at stands
    refine ⟨isAt_of_rest stands _, ?_⟩
    exact kind?_of_rest (reaches_advance stands nofun).rest
  constructor
  · intro stopped broken more split feed
    obtain ⟨broken, next⟩ := behind broken more split feed
    rw [continues, broken, Bool.true_and, next] at stopped
    cases first : (scan (afterDecoration more)).head? with
    | none =>
        refine .inl fun token head => ?_
        rw [first] at head
        cases head
    | some token =>
        have kind : firstKind? (afterDecoration more) = some token.kind :=
          congrArg (Option.map Token.kind) first
        rw [kind] at stopped
        cases same : token.kind
        case lineBreak =>
          exact .inl (endLine_of_firstKind? (.inl (kind.trans (congrArg some same))))
        case closing => exact .inl (endLine_of_firstKind? (.inr (kind.trans (congrArg some same))))
        case tag => exact .inr (kind.trans (congrArg some same))
        all_goals
          rw [same] at stopped
          cases stopped
  · intro halts
    cases stops : cursor.isAt .lineBreak with
    | false => rw [continues, stops, Bool.false_and]
    | true =>
        rcases exists_of_endLine ends with rfl | ⟨broken, more, split, feed⟩ | ⟨more, rfl⟩
        · rw [isAt, kind?, stands] at stops
          cases stops
        · obtain ⟨broken', next⟩ := behind broken more split feed
          rw [continues, stops, Bool.true_and, next]
          rcases halts broken more split feed with ends | tag
          · cases first : (scan (afterDecoration more)).head? with
            | none => rw [firstKind?, first]; rfl
            | some token =>
                rw [firstKind?, first, Option.map_some]
                rcases ends token first with kind | kind
                · rw [kind]
                · rw [kind]
          · rw [show firstKind? (afterDecoration more) = some .tag from tag]
        · rw [isAt, kind?_of_rest stands, firstKind?_closer] at stops
          cases stops

end Payload.Grammar

end DocComment
