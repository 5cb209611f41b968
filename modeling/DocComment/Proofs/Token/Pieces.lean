import DocComment.Token.Scan

/-!
# The texts of tokens

What the scanner puts into a token of each kind.  A token of a kind other than
`other` is one piece of the text and was never joined with a neighbour, so its
text has the shape that its kind announces.
-/

namespace DocComment

namespace Token

/-- A token that is exactly one piece, as the scanner cuts it. -/
def IsPiece (token : Token) : Prop :=
  ∃ c rest length, piece c rest = (token.kind, length) ∧ token.text = c :: rest.take length

/-- A text of a line break: the break, the indentation of the next line and perhaps its star. -/
def IsBreakText (text : Text) : Prop :=
  ∃ (carriage indentation star : Text), text = carriage ++ '\n' :: (indentation ++ star) ∧
    (carriage = [] ∨ carriage = ['\r']) ∧ (∀ c ∈ indentation, isPadding c = true) ∧
    (star = [] ∨ star = ['*'])

/-- Whether tokens of a kind are single characters that stand for themselves. -/
def Kind.isMark : Kind → Bool
  | .roundOpen | .roundClose | .angleOpen | .angleClose | .squareOpen | .squareClose
  | .curlyOpen | .curlyClose | .comma | .colon | .equals | .bar | .ampersand | .question => true
  | _ => false

/-! ## Tokens of a scan -/

theorem mem_prepend {token candidate : Token} {tokens : List Token}
    (mem : candidate ∈ prepend token tokens) :
    candidate = token ∨ candidate ∈ tokens ∨
      (candidate.kind = .other ∧ ∃ more, candidate.text = token.text ++ more) := by
  cases tokens with
  | nil => exact Or.inl (List.mem_singleton.mp mem)
  | cons next tokens =>
      simp only [prepend] at mem
      split at mem
      · rcases List.mem_cons.mp mem with rfl | mem
        · exact Or.inr (Or.inr ⟨rfl, next.text, rfl⟩)
        · exact Or.inr (Or.inl (List.mem_cons_of_mem next mem))
      · rcases List.mem_cons.mp mem with rfl | mem
        · exact Or.inl rfl
        · exact Or.inr (Or.inl mem)

theorem isPiece_of_mem_scanFrom {skip : Nat} {text : Text} {token : Token}
    (mem : token ∈ scanFrom skip text) (kind : token.kind ≠ .other) : token.IsPiece := by
  induction text generalizing skip with
  | nil => simp [scanFrom] at mem
  | cons c rest ih =>
      cases skip with
      | succ skip => exact ih mem
      | zero =>
          rcases mem_prepend mem with rfl | mem | ⟨other, _⟩
          · exact ⟨c, rest, (piece c rest).2, rfl, rfl⟩
          · exact ih mem
          · exact absurd other kind

theorem isPiece_of_mem_scan {text : Text} {token : Token}
    (mem : token ∈ scan text) (kind : token.kind ≠ .other) : token.IsPiece :=
  isPiece_of_mem_scanFrom mem kind

theorem text_ne_nil_of_mem_scanFrom {skip : Nat} {text : Text} {token : Token}
    (mem : token ∈ scanFrom skip text) : token.text ≠ [] := by
  induction text generalizing skip with
  | nil => simp [scanFrom] at mem
  | cons c rest ih =>
      cases skip with
      | succ skip => exact ih mem
      | zero =>
          rcases mem_prepend mem with rfl | mem | ⟨_, more, written⟩
          · exact List.cons_ne_nil _ _
          · exact ih mem
          · simp [written]

/-- No token of a text is empty. -/
theorem text_ne_nil_of_mem_scan {text : Text} {token : Token} (mem : token ∈ scan text) :
    token.text ≠ [] :=
  text_ne_nil_of_mem_scanFrom mem

/-! ## Cutting by kind -/

/-- What the scanner has seen when it cuts a piece of a kind and a length behind
its first character. -/
inductive Cut : Char → Text → Kind → Nat → Prop where
  | feed (rest : Text) : Cut '\n' rest .lineBreak (decorationLength rest)
  | carriage (more : Text) : Cut '\r' ('\n' :: more) .lineBreak (decorationLength more + 1)
  | padding {c : Char} (rest : Text) (pads : isPadding c = true) :
      Cut c rest .padding (runLength isPadding rest)
  | opening (more : Text) : Cut '/' ('*' :: '*' :: more) .opening 2
  | closing (more : Text) : Cut '*' ('/' :: more) .closing 1
  | tag {d : Char} (more : Text) (starts : isNameStart d = true) :
      Cut '@' (d :: more) .tag (runLength isNameChar more + 1)
  | varName {d : Char} (more : Text) (starts : isNameStart d = true) :
      Cut '$' (d :: more) .varName (runLength isVariableChar more + 1)
  | rooted {d : Char} (more : Text) (starts : isNameStart d = true) :
      Cut '\\' (d :: more) .name (segmentsLength more + 1)
  | name {c : Char} (rest : Text) (starts : isNameStart c = true) :
      Cut c rest .name (segmentsLength rest)
  | quoted {c : Char} {rest : Text} {length : Nat} (quote : c = '"' ∨ c = '\'')
      (closed : quotedLength c rest = (true, length)) : Cut c rest .quoted length
  | number {c : Char} (rest : Text) (digit : c.isDigit = true) :
      Cut c rest .number (numberLength rest)
  | negative {d : Char} (more : Text) (digit : d.isDigit = true) :
      Cut '-' (d :: more) .number (numberLength more + 1)
  | ellipsis (more : Text) : Cut '.' ('.' :: '.' :: more) .ellipsis 2
  | mark {c : Char} {kind : Kind} (rest : Text) (marks : markKind? c = some kind) :
      Cut c rest kind 0
  | other (c : Char) (rest : Text) (length : Nat) : Cut c rest .other length

/-- Behind a marking character a piece of the marked kind needs the start of a name. -/
theorem cut_of_markedPiece {c : Char} {rest : Text} {kind marked : Kind} {length : Nat}
    {p : Char → Bool}
    (starts : ∀ d more, isNameStart d = true → Cut c (d :: more) marked (runLength p more + 1))
    (cut : markedPiece marked p rest = (kind, length)) : Cut c rest kind length := by
  revert cut
  fun_cases markedPiece marked p rest with
  | case1 =>
      rintro ⟨⟩
      exact .other c [] 0
  | case2 d more start =>
      rintro ⟨⟩
      exact starts d more start
  | case3 d more =>
      rintro ⟨⟩
      exact .other c (d :: more) 0

theorem cut_of_piece {c : Char} {rest : Text} {kind : Kind} {length : Nat}
    (cut : piece c rest = (kind, length)) : Cut c rest kind length := by
  revert cut
  fun_cases piece c rest with
  | case1 rest newline =>
      rintro ⟨⟩
      exact newline ▸ .feed rest
  | case2 _ carriage more =>
      rintro ⟨⟩
      exact carriage ▸ .carriage more
  | case4 rest _ _ pads =>
      rintro ⟨⟩
      exact .padding rest pads
  | case5 _ _ _ slash more =>
      rintro ⟨⟩
      exact slash ▸ .opening more
  | case8 _ _ _ _ star more =>
      rintro ⟨⟩
      exact star ▸ .closing more
  | case10 rest _ _ _ _ _ marker =>
    exact marker ▸ cut_of_markedPiece fun _ more starts => .tag more starts
  | case11 rest _ _ _ _ _ _ dollar =>
    exact dollar ▸ cut_of_markedPiece fun _ more starts => .varName more starts
  | case12 _ _ _ _ _ _ _ backslash d more starts =>
      rintro ⟨⟩
      exact backslash ▸ .rooted more starts
  | case15 rest _ _ _ _ _ _ _ _ starts =>
      rintro ⟨⟩
      exact .name rest starts
  | case16 rest _ _ _ _ _ _ _ _ _ quote closed length found =>
      cases closed <;> rintro ⟨⟩
      · exact .other c rest length
      · exact .quoted (by simpa using quote) found
  | case17 rest _ _ _ _ _ _ _ _ _ _ digit =>
      rintro ⟨⟩
      exact .number rest digit
  | case18 _ _ _ _ _ _ _ _ _ _ _ minus d more digit =>
      rintro ⟨⟩
      exact minus ▸ .negative more digit
  | case21 _ _ _ _ _ _ _ _ _ _ _ _ dot more =>
      rintro ⟨⟩
      exact dot ▸ .ellipsis more
  | case24 rest _ _ _ _ _ _ _ _ _ _ _ _ _ kind marks =>
      rintro ⟨⟩
      exact .mark rest marks
  | _ =>
      rintro ⟨⟩
      exact .other _ _ _
/-- A character that is a token by itself is a mark. -/
theorem Kind.isMark_of_markKind? {c : Char} {kind : Kind} (marks : markKind? c = some kind) :
    kind.isMark = true := by
  unfold markKind? at marks
  split at marks <;> cases marks <;> rfl

/-- Different characters that stand for themselves are marks of different kinds. -/
theorem eq_of_markKind? {c d : Char} {kind : Kind} (first : markKind? c = some kind)
    (second : markKind? d = some kind) : c = d := by
  unfold markKind? at first second
  split at first <;> cases first
  all_goals
    split at second <;> cases second
    rfl

/-! ## Shapes by kind -/

theorem take_runLength (p : Char → Bool) (text : Text) :
    text.take (runLength p text) = text.takeWhile p := by
  induction text with
  | nil => rfl
  | cons c rest ih =>
      by_cases inside : p c = true
      · simpa [runLength, inside] using ih
      · simp [runLength, inside]

theorem take_decorationLength (text : Text) :
    ∃ star, text.take (decorationLength text) = text.takeWhile isPadding ++ star ∧
      (star = [] ∨ star = ['*']) := by
  have split : text.takeWhile isPadding ++ text.drop (runLength isPadding text) = text := by
    rw [← take_runLength]
    exact List.take_append_drop _ _
  unfold decorationLength
  dsimp only
  split
  · exact ⟨[], by rw [take_runLength, List.append_nil], Or.inl rfl⟩
  · next rest _ stands =>
    refine ⟨['*'], ?_, Or.inr rfl⟩
    rw [stands] at split
    rw [List.take_add, take_runLength, stands]
    rfl
  · exact ⟨[], by rw [take_runLength, List.append_nil], Or.inl rfl⟩

theorem ne_of_class {p : Char → Bool} {c d : Char} (outside : p d = false) (inside : p c = true) :
    c ≠ d := by
  rintro rfl
  rw [outside] at inside
  cases inside

theorem isNameChar_of_isNameStart {c : Char} (starts : isNameStart c = true) :
    isNameChar c = true := by
  rw [isNameStart, Bool.or_eq_true] at starts
  rw [isNameChar, isVariableChar, Char.isAlphanum]
  rcases starts with alpha | underscore
  · rw [alpha]
    rfl
  · rw [underscore, Bool.or_true, Bool.true_or]

/-- The rest of a name has only name characters and the backslashes between segments. -/
theorem mem_take_segmentsLength {text : Text} :
    ∀ d ∈ text.take (segmentsLength text), isNameChar d = true ∨ d = '\\' := by
  fun_induction segmentsLength text with
  | case1 => simp
  | case2 c inside => simp [inside]
  | case3 => simp
  | case4 c d rest inside ih =>
      rw [List.take_succ_cons]
      exact List.forall_mem_cons.mpr ⟨Or.inl inside, ih⟩
  | case5 c d rest outside parted ih =>
      rw [Bool.and_eq_true, decide_eq_true_eq] at parted
      rw [List.take_succ_cons, List.take_succ_cons]
      exact List.forall_mem_cons.mpr ⟨Or.inr parted.1,
        List.forall_mem_cons.mpr ⟨Or.inl (isNameChar_of_isNameStart parted.2), ih⟩⟩
  | case6 => simp

theorem mem_take_runLength (p : Char → Bool) (text : Text) :
    ∀ d ∈ text.take (runLength p text), p d = true := by
  rw [take_runLength]
  exact List.all_eq_true.mp List.all_takeWhile

theorem mem_take_numberLength {text : Text} :
    ∀ d ∈ text.take (numberLength text), d.isDigit = true ∨ d = '.' := by
  have whole := mem_take_runLength Char.isDigit text
  unfold numberLength
  dsimp only
  split
  next fraction stands =>
    split
    next => exact fun d mem => Or.inl (whole d mem)
    next digits nonzero found =>
      intro d mem
      rw [Nat.add_assoc, List.take_add, List.mem_append, stands, Nat.add_comm, List.take_succ_cons,
        List.mem_cons] at mem
      rcases mem with mem | rfl | mem
      · exact Or.inl (whole d mem)
      · exact Or.inr rfl
      · exact Or.inl (mem_take_runLength _ _ d mem)
  next => exact fun d mem => Or.inl (whole d mem)

/-- A quote that is closed ends with its quotation mark. -/
theorem getLast?_of_closed {quote : Char} {text : Text} {length : Nat}
    (closed : quotedLength quote text = (true, length)) :
    (text.take length).getLast? = some quote := by
  fun_induction quotedLength quote text generalizing length with
  | case1 => cases closed
  | case2 => cases closed
  | case3 c _ =>
      rw [Prod.mk.injEq, beq_iff_eq] at closed
      obtain ⟨rfl, rfl⟩ := closed
      rfl
  | case4 => cases closed
  | case5 =>
      cases closed
      rfl
  | case6 => cases closed
  | case7 d rest _ found more cut _ _ ih =>
      cases closed
      rw [List.take_succ_cons, List.take_succ_cons, List.getLast?_cons, List.getLast?_cons, ih cut]
      rfl
  | case8 c d rest _ _ _ found more cut ih =>
      cases closed
      rw [List.take_succ_cons, List.getLast?_cons, ih cut]
      rfl

namespace IsPiece

variable {token : Token}

/-- A piece was cut by one of the rules for its kind. -/
theorem exists_cut {kind : Kind} (cut : token.IsPiece) (same : token.kind = kind) :
    ∃ c rest length, Cut c rest kind length ∧ token.text = c :: rest.take length := by
  obtain ⟨c, rest, length, cut, written⟩ := cut
  exact ⟨c, rest, length, cut_of_piece (same ▸ cut), written⟩

theorem text_of_opening (cut : token.IsPiece) (kind : token.kind = .opening) :
    token.text = ['/', '*', '*'] := by
  obtain ⟨c, rest, length, found, written⟩ := cut.exists_cut kind
  cases found with
  | opening more => exact written
  | mark _ marks => cases Kind.isMark_of_markKind? marks

theorem text_of_closing (cut : token.IsPiece) (kind : token.kind = .closing) :
    token.text = ['*', '/'] := by
  obtain ⟨c, rest, length, found, written⟩ := cut.exists_cut kind
  cases found with
  | closing more => exact written
  | mark _ marks => cases Kind.isMark_of_markKind? marks

theorem text_of_ellipsis (cut : token.IsPiece) (kind : token.kind = .ellipsis) :
    token.text = ['.', '.', '.'] := by
  obtain ⟨c, rest, length, found, written⟩ := cut.exists_cut kind
  cases found with
  | ellipsis more => exact written
  | mark _ marks => cases Kind.isMark_of_markKind? marks

theorem head?_of_tag (cut : token.IsPiece) (kind : token.kind = .tag) :
    token.text.head? = some '@' := by
  obtain ⟨c, rest, length, found, written⟩ := cut.exists_cut kind
  cases found with
  | tag more _ => rw [written, List.head?_cons]
  | mark _ marks => cases Kind.isMark_of_markKind? marks

theorem head?_of_varName (cut : token.IsPiece) (kind : token.kind = .varName) :
    token.text.head? = some '$' := by
  obtain ⟨c, rest, length, found, written⟩ := cut.exists_cut kind
  cases found with
  | varName => rw [written, List.head?_cons]
  | mark _ marks => cases Kind.isMark_of_markKind? marks

theorem text_of_padding (cut : token.IsPiece) (kind : token.kind = .padding) :
    ∀ c ∈ token.text, isPadding c = true := by
  obtain ⟨c, rest, length, found, written⟩ := cut.exists_cut kind
  cases found with
  | padding _ pads =>
      rw [written, take_runLength]
      exact List.forall_mem_cons.mpr ⟨pads, List.all_eq_true.mp List.all_takeWhile⟩
  | mark _ marks => cases Kind.isMark_of_markKind? marks

/-- A mark is the character that stands for itself. -/
theorem exists_mark (cut : token.IsPiece) (marked : token.kind.isMark = true) :
    ∃ c, token.text = [c] ∧ markKind? c = some token.kind := by
  obtain ⟨c, rest, length, found, written⟩ := cut.exists_cut rfl
  generalize token.kind = kind at found marked
  cases found with
  | mark _ marks => exact ⟨c, written, marks⟩
  | _ => cases marked

/-- Each mark is of the kind of one character only. -/
theorem text_of_mark (cut : token.IsPiece) {c : Char} (marks : markKind? c = some token.kind) :
    token.text = [c] := by
  obtain ⟨d, written, same⟩ := cut.exists_mark (Kind.isMark_of_markKind? marks)
  rw [written, eq_of_markKind? same marks]

theorem text_of_ampersand (cut : token.IsPiece) (kind : token.kind = .ampersand) :
    token.text = ['&'] :=
  cut.text_of_mark (by rw [kind]; rfl)

theorem text_of_lineBreak (cut : token.IsPiece) (kind : token.kind = .lineBreak) :
    IsBreakText token.text := by
  obtain ⟨c, rest, length, found, written⟩ := cut.exists_cut kind
  have indented (text : Text) : ∀ c ∈ text.takeWhile isPadding, isPadding c = true :=
    fun c mem => List.all_eq_true.mp (List.all_takeWhile) c mem
  cases found with
  | feed =>
      obtain ⟨star, taken, starred⟩ := take_decorationLength rest
      exact ⟨[], rest.takeWhile isPadding, star, by rw [written, taken]; rfl, Or.inl rfl,
        indented rest, starred⟩
  | carriage more =>
      obtain ⟨star, taken, starred⟩ := take_decorationLength more
      exact ⟨['\r'], more.takeWhile isPadding, star,
        by rw [written, List.take_succ_cons, taken]; rfl, Or.inr rfl, indented more, starred⟩
  | mark _ marks => cases Kind.isMark_of_markKind? marks

end IsPiece

/-- A line break holds a line feed. -/
theorem IsBreakText.mem {text : Text} (broken : IsBreakText text) : '\n' ∈ text := by
  obtain ⟨carriage, indentation, star, rfl, _⟩ := broken
  simp

end Token

end DocComment
