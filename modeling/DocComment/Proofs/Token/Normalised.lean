import DocComment.Proofs.Token.LineByLine

/-!
# The tokens of a text

What holds of every list of tokens that a text is cut into, collected in
`Normalised`: no character is lost, no two neighbours could have been one token,
every line feed stands in a line break, and a line break takes up what decorates
the next line.  The main statement is `normalised_scan`.
-/

namespace DocComment

namespace Token

/-! ## Pieces -/

/-- Whether a quote is closed or not, the line feed behind it is not read. -/
theorem unbroken_quotedLength (quote : Char) (text : Text) :
    '\n' ∉ text.take (quotedLength quote text).2 := by
  fun_induction quotedLength quote text with
  | case1 | case2 | case4 => exact List.not_mem_nil
  | case3 c other | case5 d rest other | case6 rest other =>
      rw [List.take_succ_cons, List.take_zero, List.mem_singleton]
      exact Ne.symm other
  | case7 d rest unbroken found more cut other plain ih =>
      rw [cut] at ih
      rw [List.take_succ_cons, List.take_succ_cons, List.mem_cons, List.mem_cons, not_or, not_or]
      exact ⟨Ne.symm other, Ne.symm unbroken, ih⟩
  | case8 c d rest other plain dark found more cut ih =>
      rw [cut] at ih
      rw [List.take_succ_cons, List.mem_cons, not_or]
      exact ⟨Ne.symm other, ih⟩

theorem unbroken_of_class {p : Char → Bool} {text : Text} (feed : p '\n' = false)
    (inside : ∀ d ∈ text, p d = true) :
    '\n' ∉ text := by
  intro mem
  rw [inside _ mem] at feed
  cases feed

theorem unbroken_cons {p : Char → Bool} {d : Char} {text : Text} (feed : p '\n' = false)
    (inside : p d = true) (unbroken : '\n' ∉ text) : '\n' ∉ d :: text := by
  rw [List.mem_cons, not_or]
  exact ⟨Ne.symm (ne_of_class feed inside), unbroken⟩

theorem unbroken_segments (text : Text) : '\n' ∉ text.take (segmentsLength text) := by
  intro mem
  rcases mem_take_segmentsLength _ mem with name | slash
  · cases name
  · cases slash

theorem unbroken_number (text : Text) : '\n' ∉ text.take (numberLength text) := by
  intro mem
  rcases mem_take_numberLength _ mem with digit | dot
  · cases digit
  · cases dot

theorem unbroken_markedPiece {kind : Kind} {p : Char → Bool} (feed : p '\n' = false) (text : Text) :
    '\n' ∉ text.take (markedPiece kind p text).2 := by
  cases text with
  | nil => exact List.not_mem_nil
  | cons c rest =>
      rw [markedPiece]
      split
      next starts =>
        exact unbroken_cons (by decide) starts (unbroken_of_class feed (mem_take_runLength p rest))
      next => exact List.not_mem_nil

/-- A piece holds no line feed unless it is a line break. -/
theorem unbroken_piece {c : Char} {rest : Text} (other : (piece c rest).1 ≠ .lineBreak) :
    '\n' ∉ c :: rest.take (piece c rest).2 := by
  have feed : c ≠ '\n' := by
    rintro rfl
    exact other rfl
  rw [List.mem_cons, not_or]
  refine ⟨Ne.symm feed, ?_⟩
  revert other
  fun_cases piece c rest with
  | case1 | case2 => exact fun broken => absurd rfl broken
  | case4 => exact fun _ => unbroken_of_class (by decide) (mem_take_runLength isPadding _)
  | case10 | case11 => exact fun _ => unbroken_markedPiece (by decide) _
  | case12 _ _ _ _ _ _ _ _ _ more starts =>
    exact fun _ => unbroken_cons (by decide) starts (unbroken_segments more)
  | case15 => exact fun _ => unbroken_segments _
  | case16 rest _ _ _ _ _ _ _ _ _ _ closed length found =>
      have inside := unbroken_quotedLength c rest
      rw [found] at inside
      exact fun _ => inside
  | case17 => exact fun _ => unbroken_number _
  | case18 _ _ _ _ _ _ _ _ _ _ _ _ _ more digit =>
    exact fun _ => unbroken_cons (by decide) digit (unbroken_number more)
  | _ => simp

/-! ## Neighbours -/

/-- What may stand right behind a token. -/
structure MayFollow (first second : Token) : Prop where
  other : first.kind = .other → second.kind ≠ .other
  padding : first.kind = .padding → second.kind ≠ .padding
  indentation : first.kind = .lineBreak → second.kind = .padding → first.text.getLast? = some '*'

/-- Behind unknown text everything else may stand. -/
theorem mayFollow_other {text : Text} {second : Token} (other : second.kind ≠ .other) :
    MayFollow ⟨.other, text⟩ second where
  other := fun _ => other
  padding := nofun
  indentation := nofun

/-- What is put in front of others is joined with the first one, or it may stand there. -/
theorem isChain_prepend {token : Token} {tokens : List Token} (chain : tokens.IsChain MayFollow)
    (padding : ∀ next ∈ tokens.head?, next.kind = .padding → token.kind ≠ .padding ∧
      (token.kind = .lineBreak → token.text.getLast? = some '*')) :
    (prepend token tokens).IsChain MayFollow := by
  cases tokens with
  | nil => exact .singleton _
  | cons next tokens =>
      rw [prepend]
      split
      next joined =>
        cases tokens with
        | nil => exact .singleton _
        | cons second tokens =>
            obtain ⟨follows, later⟩ := List.isChain_cons_cons.mp chain
            exact List.isChain_cons_cons.mpr ⟨mayFollow_other (follows.other joined.2), later⟩
      next apart =>
        refine List.isChain_cons_cons.mpr ⟨⟨?_, ?_, ?_⟩, chain⟩
        · exact fun first second => apart ⟨first, second⟩
        · exact fun first second => (padding next rfl second).1 first
        · exact fun first second => (padding next rfl second).2 first

/-- Padding stands behind the decoration of a line only if that ends with a star. -/
theorem getLast?_decoration {text more : Text} {d : Char} (pads : isPadding d = true)
    (behind : text.drop (decorationLength text) = d :: more) :
    (text.take (decorationLength text)).getLast? = some '*' := by
  have indented : text.drop (runLength isPadding text) ≠ d :: more := fun stands => by
    rw [drop_runLength] at stands
    have head := List.head?_dropWhile_not isPadding text
    rw [stands, List.head?_cons] at head
    simp [pads] at head
  unfold decorationLength at behind ⊢
  dsimp only at behind ⊢
  split at behind
  next => exact absurd behind indented
  next rest _ stands =>
    rw [List.take_add, stands]
    exact List.getLast?_concat
  next => exact absurd behind indented

/-- A line break or padding in front of padding: no piece of the two could be longer. -/
theorem parts_of_padding {c d : Char} {rest more : Text} (pads : isPadding d = true)
    (behind : rest.drop (piece c rest).2 = d :: more) :
    (piece c rest).1 ≠ .padding ∧
      ((piece c rest).1 = .lineBreak → (c :: rest.take (piece c rest).2).getLast? = some '*') := by
  have cut : Cut c rest (piece c rest).1 (piece c rest).2 := cut_of_piece rfl
  generalize (piece c rest).1 = kind at cut
  generalize (piece c rest).2 = length at cut behind
  have other {found : Kind} (marks : markKind? c = some found) :
      found ≠ .padding ∧ found ≠ .lineBreak := by
    have marked := Kind.isMark_of_markKind? marks
    constructor <;> rintro rfl <;> cases marked
  cases cut with
  | padding =>
      rw [drop_runLength] at behind
      have head := List.head?_dropWhile_not isPadding rest
      rw [behind, List.head?_cons] at head
      simp [pads] at head
  | feed =>
      have last := getLast?_decoration pads behind
      exact ⟨nofun, fun _ => by rw [List.getLast?_cons, last]; rfl⟩
  | carriage front =>
      have last := getLast?_decoration pads behind
      refine ⟨nofun, fun _ => ?_⟩
      rw [List.take_succ_cons, List.getLast?_cons_cons, List.getLast?_cons, last]
      rfl
  | mark _ marks => exact ⟨(other marks).1, fun broken => absurd broken (other marks).2⟩
  | _ => exact ⟨nofun, nofun⟩

/-- No two neighbours among the tokens of a text could have been one token. -/
theorem isChain_scan (text : Text) : (scan text).IsChain MayFollow := by
  induction text using piecewise with
  | nil => exact .nil
  | cons c rest ih =>
      rw [scan_cons]
      refine isChain_prepend ih fun next head pads => ?_
      cases back : rest.drop (piece c rest).2 with
      | nil =>
          rw [back] at head
          cases head
      | cons d more =>
          have first := firstKind?_cons d more
          rw [firstKind?, ← back, head, Option.map_some, pads, Option.some.injEq] at first
          exact parts_of_padding (isPadding_of_piece first.symm) back

/-! ## Line feeds -/

/-- No token but a line break holds a line feed. -/
theorem unbroken_of_mem_scan {text : Text} {token : Token} (mem : token ∈ scan text)
    (other : token.kind ≠ .lineBreak) : '\n' ∉ token.text := by
  induction text using piecewise generalizing token with
  | nil => cases mem
  | cons c rest ih =>
      rw [scan_cons] at mem
      generalize first : (⟨(piece c rest).1, c :: rest.take (piece c rest).2⟩ : Token) = head at mem
      have here : head.kind ≠ .lineBreak → '\n' ∉ head.text := by
        subst first
        exact unbroken_piece
      cases back : scan (rest.drop (piece c rest).2) with
      | nil =>
          rw [back] at mem
          cases List.mem_singleton.mp mem
          exact here other
      | cons next tokens =>
          rw [back] at mem ih
          rw [prepend] at mem
          split at mem
          next joined =>
            rcases List.mem_cons.mp mem with rfl | mem
            · rw [List.mem_append, not_or]
              exact ⟨here (by simp [joined.1]), ih List.mem_cons_self (by simp [joined.2])⟩
            · exact ih (List.mem_cons_of_mem next mem) other
          next =>
            rcases List.mem_cons.mp mem with rfl | mem
            · exact here other
            · exact ih mem other

/-- Every character of a text stands in one of the tokens that cover it. -/
theorem exists_split_of_textOf {tokens : List Token} {front back : Text} {c : Char}
    (whole : textOf tokens = front ++ c :: back) :
    ∃ before token after, tokens = before ++ token :: after ∧
      ∃ inner outer, token.text = inner ++ c :: outer ∧ front = textOf before ++ inner := by
  induction tokens generalizing front with
  | nil => cases List.append_ne_nil_of_right_ne_nil front (List.cons_ne_nil c back) whole.symm
  | cons token tokens ih =>
      rw [textOf_cons] at whole
      rcases List.append_eq_append_iff.mp whole with ⟨inner, rfl, later⟩ | ⟨outer, here, later⟩
      · obtain ⟨before, found, after, rfl, inside, outer, written, rfl⟩ := ih later
        exact ⟨token :: before, found, after, rfl, inside, outer,
          written, by rw [textOf_cons, List.append_assoc]⟩
      · cases outer with
        | nil =>
            obtain ⟨before, found, after, rfl, inside, outer, written, empty⟩ := @ih [] later.symm
            refine ⟨token :: before, found, after, rfl, inside, outer, written, ?_⟩
            rw [textOf_cons, List.append_assoc, ← empty, here]
            simp
        | cons d outer =>
            obtain ⟨rfl, -⟩ := List.cons.inj later
            exact ⟨[], token, tokens, rfl, front, outer, here, rfl⟩

/-! ## All tokens of a text -/

/-- What the tokens of a text are. -/
structure Normalised (text : Text) (tokens : List Token) : Prop where
  /-- No character is lost, changed or moved. -/
  lossless : textOf tokens = text
  /-- Each token is counted by its place. -/
  placed : ∀ place : Nat, (withPlaces tokens)[place]? = tokens[place]?.map fun token => (token, place)
  proper : ∀ token ∈ tokens, token.text ≠ []
  /-- Two unknown texts or two runs of padding are never neighbours, and padding stands behind a
  line break only if that ends with its star. -/
  chain : tokens.IsChain MayFollow
  /-- Every line feed of the text stands in a line break. -/
  broken : ∀ front back, text = front ++ '\n' :: back → ∃ before token after,
    tokens = before ++ token :: after ∧ token.kind = .lineBreak ∧
      ∃ inner outer, token.text = inner ++ '\n' :: outer ∧ front = textOf before ++ inner
  /-- A line break is the break itself, the indentation of the next line and perhaps its star. -/
  breakText : ∀ token ∈ tokens, token.kind = .lineBreak → IsBreakText token.text
  /-- The star of a line break closes no comment. -/
  unclosed : ∀ before token after, tokens = before ++ token :: after → token.kind = .lineBreak →
    token.text.getLast? = some '*' → (textOf after).head? ≠ some '/'

end Token

end DocComment
