import DocComment.Proofs.Token.Seam

/-!
# Scanning line by line

No token but a line break holds a line feed, so a text is scanned line by line
(`scan_lines`).  What a line break takes up of the next line, its
indentation and its star, opens and closes no parenthesis (`openRounds_feed`).
-/

namespace DocComment

namespace Token

/-! ## Lines -/

theorem scan_feed (rest : Text) :
    scan ('\n' :: rest) = ⟨.lineBreak, '\n' :: rest.take (decorationLength rest)⟩ ::
      scan (rest.drop (decorationLength rest)) := by
  have cut : piece '\n' rest = (.lineBreak, decorationLength rest) := rfl
  rw [scan_cons, cut, prepend_of_known (by simp)]

/-- A line feed that belongs to no carriage return ends every token in front of it. -/
theorem seam_feed {front : Text} (carriage : front.getLast? ≠ some '\r') (rest : Text) :
    Seam front (scan front) [] ('\n' :: rest) where
  parted := parted_feed rest
  known := by rw [firstKind?_cons]; exact nofun
  padding := by rintro c ⟨⟩ pads; cases pads
  star := nofun
  carriage _ := Or.inr carriage
  quote _ := Or.inl (Or.inr rfl)

/--
What stands in front of a line feed is scanned without regard to what stands
behind it, and the other way round: no quote, unknown text or joined token
reaches over the end of its line.
-/
theorem scan_lines {front : Text} (carriage : front.getLast? ≠ some '\r') (rest : Text) :
    scan (front ++ '\n' :: rest) = scan front ++ scan ('\n' :: rest) :=
  scan_append_of_ends (seam_feed carriage rest)

/-- A quote that is left open ends with its line, although the next one has a quotation mark. -/
theorem scan_lines_open_quote :
    "/** it's".toList.getLast? ≠ some '\r' ∧
      scan ("/** it's".toList ++ '\n' :: " * open' */".toList) =
        scan "/** it's".toList ++ scan ('\n' :: " * open' */".toList) :=
  ⟨by decide, scan_lines (by decide) _⟩

/-- A line is scanned without regard to the lines behind it. -/
theorem scan_append_feed {line : Text} (carriage : '\r' ∉ line) (rest : Text) :
    scan (line ++ '\n' :: rest) = scan line ++ scan ('\n' :: rest) :=
  scan_append_of_ends (seam_feed (fun last => carriage (List.mem_of_getLast? last)) rest)

/-- A decorated line is a line break and the tokens of what stands behind the star. -/
theorem scan_starred {rest : Text} (other : rest.head? ≠ some '/') :
    scan ('\n' :: ' ' :: '*' :: rest) = ⟨.lineBreak, ['\n', ' ', '*']⟩ :: scan rest := by
  have length : decorationLength (' ' :: '*' :: rest) = 2 := by
    cases rest with
    | nil => rfl
    | cons c more =>
        have slash : c ≠ '/' := fun same => other (congrArg some same)
        simp [decorationLength, runLength, isPadding, slash]
  rw [scan_feed, length]
  rfl

theorem text_infix_of_mem_scan {text : Text} {token : Token} (mem : token ∈ scan text) :
    token.text <:+: text := by
  obtain ⟨front, back, split⟩ := List.append_of_mem mem
  refine ⟨textOf front, textOf back, ?_⟩
  rw [← textOf_scan text, split, textOf_append, textOf_cons, List.append_assoc]

/-- A text without line feeds has no line break. -/
theorem ne_lineBreak_of_mem_scan {text : Text} (unbroken : '\n' ∉ text) {token : Token}
    (mem : token ∈ scan text) : token.kind ≠ .lineBreak := by
  intro broken
  have piece := isPiece_of_mem_scan mem (by rw [broken]; decide)
  exact unbroken ((text_infix_of_mem_scan mem).subset (piece.text_of_lineBreak broken).mem)

/-- A text in which no comment is closed has no closing marker. -/
theorem ne_closing_of_mem_scan {text : Text} (unclosed : text.Unclosed) {token : Token}
    (mem : token ∈ scan text) : token.kind ≠ .closing := by
  intro closing
  have piece := isPiece_of_mem_scan mem (by rw [closing]; decide)
  have occurs := text_infix_of_mem_scan mem
  rw [piece.text_of_closing closing] at occurs
  exact unclosed occurs

/-! ## Padding -/

theorem drop_runLength (p : Char → Bool) (text : Text) :
    text.drop (runLength p text) = text.dropWhile p := by
  calc
    text.drop (runLength p text) =
        (text.takeWhile p ++ text.dropWhile p).drop (runLength p text) := by
      rw [List.takeWhile_append_dropWhile]
    _ = text.dropWhile p := List.drop_left

theorem scan_cons_of_padding {c : Char} (pads : isPadding c = true) (rest : Text) :
    scan (c :: rest) = ⟨.padding, c :: rest.takeWhile isPadding⟩ ::
      scan (rest.dropWhile isPadding) := by
  rw [scan_cons, piece_padding pads, prepend_of_known (by simp), drop_runLength, take_runLength]

/-- A text that begins with a token of one kind whatever stands behind it. -/
structure StartsWith (kind : Kind) (text : Text) : Prop where
  proper : text ≠ []
  kind? : ∀ rest, firstKind? (text ++ rest) = some kind

theorem StartsWith.append {kind : Kind} {text : Text} (starts : StartsWith kind text)
    (more : Text) :
    StartsWith kind (text ++ more) where
  proper := by simp [starts.proper]
  kind? rest := by rw [List.append_assoc, starts.kind?]

theorem startsWith_mark {c : Char} {kind : Kind} (marks : markKind? c = some kind) (more : Text) :
    StartsWith kind (c :: more) where
  proper := List.cons_ne_nil _ _
  kind? rest := by rw [List.cons_append, firstKind?_cons, piece_mark marks]

theorem startsWith_of_isSole {kind : Kind} {text : Text} (sole : isSole kind text = true)
    (word : kind.isWord = true) : StartsWith kind text := by
  obtain ⟨c, front, rfl, cut⟩ := exists_cut_of_isSole sole word
  refine ⟨List.cons_ne_nil _ _, fun rest => ?_⟩
  rw [List.cons_append, firstKind?_cons, kind_piece_append cut word]

theorem isPadding_of_piece {c : Char} {rest : Text} (pads : (piece c rest).1 = .padding) :
    isPadding c = true := by
  have cut : Cut c rest (piece c rest).1 (piece c rest).2 := cut_of_piece rfl
  rw [pads] at cut
  generalize (piece c rest).2 = length at cut
  generalize named : Kind.padding = kind at cut
  cases cut with
  | padding _ inside => exact inside
  | mark _ marks =>
      subst named
      cases Kind.isMark_of_markKind? marks
  | _ => cases named

/-- Behind the padding in front of a text the scanner goes on as at a start. -/
theorem dropWhile_scan (text : Text) :
    (scan text).dropWhile (fun token => token.kind == .padding) =
      scan (text.dropWhile isPadding) := by
  have stops {c : Char} (outside : isPadding c = false) (rest : Text) :
      (scan (c :: rest)).dropWhile (fun token => token.kind == .padding) = scan (c :: rest) := by
    have head := firstKind?_cons c rest
    rw [firstKind?] at head
    cases tokens : scan (c :: rest) with
    | nil => rfl
    | cons token others =>
        rw [tokens] at head
        refine List.dropWhile_cons_of_neg fun pads => ?_
        have inside := isPadding_of_piece ((Option.some.inj head).symm.trans (beq_iff_eq.mp pads))
        rw [outside] at inside
        cases inside
  cases text with
  | nil => rfl
  | cons c rest =>
      cases pads : isPadding c with
      | false => rw [stops pads, List.dropWhile_cons_of_neg (by simp [pads])]
      | true =>
          rw [scan_cons_of_padding pads, List.dropWhile_cons_of_pos (by rfl),
            List.dropWhile_cons_of_pos pads]
          have head := List.head?_dropWhile_not isPadding rest
          cases behind : rest.dropWhile isPadding with
          | nil => rfl
          | cons d more =>
              rw [behind] at head
              exact stops (by simpa using head) more

/-- Where no padding token comes first, no padding does. -/
theorem dropWhile_of_firstKind? {text : Text} (other : firstKind? text ≠ some .padding) :
    text.dropWhile isPadding = text := by
  cases text with
  | nil => rfl
  | cons c rest =>
      refine List.dropWhile_cons_of_neg fun pads => other ?_
      rw [firstKind?_cons, piece_padding pads]

/-- The padding in front of a text is one token. -/
theorem takeWhile_scan (text : Text) :
    (scan text).takeWhile (fun token => token.kind == .padding) =
      if text.head?.any isPadding then [⟨.padding, text.takeWhile isPadding⟩] else [] := by
  have split := List.takeWhile_append_dropWhile
    (p := fun token : Token => token.kind == .padding) (l := scan text)
  rw [dropWhile_scan] at split
  cases text with
  | nil => rfl
  | cons c rest =>
      cases pads : isPadding c with
      | false =>
          rw [List.dropWhile_cons_of_neg (by simp [pads])] at split
          rw [if_neg (by simp [pads])]
          exact List.append_cancel_right (split.trans (List.nil_append _).symm)
      | true =>
          rw [List.dropWhile_cons_of_pos pads, scan_cons_of_padding pads] at split
          rw [if_pos (by simp [pads]), scan_cons_of_padding pads, List.takeWhile_cons_of_pos pads]
          exact List.append_cancel_right (split.trans List.singleton_append.symm)

/-! ## Parentheses -/

/-- How many parentheses are open behind a token of a kind. -/
def roundsBehind (depth : Nat) : Kind → Nat
  | .roundOpen => depth + 1
  | .roundClose => depth - 1
  | _ => depth

/-- How many parentheses are open behind tokens, with the given number open in front. -/
def openRounds (depth : Nat) (tokens : List Token) : Nat :=
  tokens.foldl (fun depth token => roundsBehind depth token.kind) depth

theorem openRounds_append (depth : Nat) (first second : List Token) :
    openRounds depth (first ++ second) = openRounds (openRounds depth first) second :=
  List.foldl_append

theorem openRounds_prepend_other (depth : Nat) (text : Text) (tokens : List Token) :
    openRounds depth (prepend ⟨.other, text⟩ tokens) = openRounds depth tokens := by
  cases tokens with
  | nil => rfl
  | cons next tokens =>
      rw [prepend]
      split
      next joined =>
        rw [openRounds, openRounds, List.foldl_cons, List.foldl_cons, joined.2]
      next => rfl

theorem openRounds_dropWhile (depth : Nat) (text : Text) :
    openRounds depth (scan (text.dropWhile isPadding)) = openRounds depth (scan text) := by
  cases text with
  | nil => rfl
  | cons c rest =>
      cases pads : isPadding c with
      | false => rw [List.dropWhile_cons_of_neg (by simp [pads])]
      | true =>
          rw [List.dropWhile_cons_of_pos pads, scan_cons_of_padding pads]
          rfl

theorem openRounds_star (depth : Nat) {rest : Text} (other : rest.head? ≠ some '/') :
    openRounds depth (scan ('*' :: rest)) = openRounds depth (scan rest) := by
  rw [scan_cons, piece_star other]
  exact openRounds_prepend_other depth _ _

/-- A line break opens and closes nothing, nor does the decoration that it takes up. -/
theorem openRounds_feed (depth : Nat) (rest : Text) :
    openRounds depth (scan ('\n' :: rest)) = openRounds depth (scan rest) := by
  have behind : openRounds depth (scan (rest.drop (decorationLength rest))) =
      openRounds depth (scan rest) := by
    rw [← openRounds_dropWhile depth rest, ← drop_runLength, decorationLength]
    split
    next => rfl
    next more other stands =>
      rw [← List.drop_drop, stands]
      refine (openRounds_star depth fun head => ?_).symm
      obtain ⟨others, written⟩ := List.head?_eq_some_iff.mp head
      exact other others written
    next => rfl
  rw [scan_feed]
  exact behind

end Token

end DocComment
