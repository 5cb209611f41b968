import DocComment.Proofs.Reading.Written
import DocComment.Proofs.Token.Normalised

/-!
# Tokens of one line

On a line without a line feed an open quote reaches up to the end, so unknown text that
something stands behind holds neither quotation marks nor padding (`isSolid_of_other`).  A
text without open quotes is scanned by itself in front of a mark (`scan_append_mark`).
-/

namespace DocComment

namespace Token

variable {text rest : Text} {c : Char}

/-! ## Open quotes -/

/-- A character that is neither padding nor a quotation mark. -/
def isSolid (c : Char) : Bool :=
  !isPadding c && c != '"' && c != '\''

/-- A quote that is not closed on its line is open up to the end of it. -/
theorem drop_of_open {quote : Char} (unbroken : '\n' ∉ text)
    (open? : (quotedLength quote text).1 = false) :
    text.drop (quotedLength quote text).2 = [] := by
  fun_induction quotedLength quote text with
  | case1 => rfl
  | case2 | case4 => exact absurd List.mem_cons_self unbroken
  | case3 => rfl
  | case5 => cases open?
  | case6 rest => exact absurd (List.mem_cons_of_mem _ List.mem_cons_self) unbroken
  | case7 d rest _ found more cut _ _ ih =>
      rw [cut] at ih
      exact ih (fun mem => unbroken (List.mem_cons_of_mem _ (List.mem_cons_of_mem _ mem))) open?
  | case8 c d rest _ _ _ found more cut ih =>
      rw [cut] at ih
      exact ih (fun mem => unbroken (List.mem_cons_of_mem _ mem)) open?

theorem isSolid_of_take_marked {kind : Kind} {p : Char → Bool} (known : kind ≠ .other)
    (other : (markedPiece kind p rest).1 = .other) :
    ∀ d ∈ rest.take (markedPiece kind p rest).2, isSolid d = true := by
  revert other
  fun_cases markedPiece kind p rest with
  | case1 => exact fun _ => List.forall_mem_nil _
  | case2 => exact fun same => absurd same known
  | case3 => exact fun _ => List.forall_mem_nil _

/-- Behind the first character of an unknown piece that is no quote there is at
most a star or a dot. -/
theorem isSolid_of_take (plain : isSolid c = true) (other : (piece c rest).1 = .other) :
    ∀ d ∈ rest.take (piece c rest).2, isSolid d = true := by
  revert other
  fun_cases piece c rest with
  -- A slash takes a star, and a dot another dot.
  | case6 | case22 =>
      intro _ d mem
      cases List.mem_singleton.mp mem
      rfl
  | case10 => exact isSolid_of_take_marked (by decide)
  | case11 => exact isSolid_of_take_marked (by decide)
  | case16 rest _ _ _ _ _ _ _ _ _ quote =>
      simp only [isSolid, Bool.and_eq_true, Bool.not_eq_true', bne_iff_ne] at plain
      simp [plain] at quote
  | case3 | case7 | case9 | case13 | case14 | case19 | case20 | case23 | case24 | case25 =>
    exact fun _ => List.forall_mem_nil _
  | _ =>
    intro same
    cases same

/-- An unknown piece is solid, or it is a quote that is open up to the end of the line. -/
theorem isSolid_of_piece (unbroken : '\n' ∉ rest) (other : (piece c rest).1 = .other) :
    (∀ d ∈ c :: rest.take (piece c rest).2, isSolid d = true) ∨
    rest.drop (piece c rest).2 = [] := by
  by_cases quote : c = '"' ∨ c = '\''
  · have cut : piece c rest =
        (if (quotedLength c rest).1 then .quoted else .other, (quotedLength c rest).2) := by
      rcases quote with rfl | rfl <;> rfl
    cases closed : (quotedLength c rest).1 with
    | true =>
        rw [cut, closed] at other
        cases other
    | false =>
        rw [cut]
        exact Or.inr (drop_of_open unbroken closed)
  · cases pads : isPadding c with
    | true =>
        rw [piece_padding pads] at other
        cases other
    | false =>
        rw [not_or] at quote
        have plain : isSolid c = true := by simp [isSolid, pads, quote]
        exact Or.inl (List.forall_mem_cons.mpr ⟨plain, isSolid_of_take plain other⟩)

/-- On one line an unknown token is solid unless it is the last one. -/
theorem isSolid_of_other {before after : List Token} {token : Token} (unbroken : '\n' ∉ text)
    (cut : scan text = before ++ token :: after) (other : token.kind = .other)
    (behind : after ≠ []) :
    ∀ d ∈ token.text, isSolid d = true := by
  induction text using piecewise generalizing before token with
  | nil => cases before <;> cases cut
  | cons c rest ih =>
      have later : '\n' ∉ rest.drop (piece c rest).2 := fun mem =>
        unbroken (List.mem_cons_of_mem _ (List.mem_of_mem_drop mem))
      have here (other : (piece c rest).1 = .other)
          (proper : scan (rest.drop (piece c rest).2) ≠ []) :
          ∀ d ∈ c :: rest.take (piece c rest).2, isSolid d = true := by
        refine (isSolid_of_piece
          (fun mem => unbroken (List.mem_cons_of_mem _ mem)) other).resolve_right ?_
        intro empty
        rw [empty] at proper
        exact proper rfl
      rw [scan_cons] at cut
      cases found : scan (rest.drop (piece c rest).2) with
      | nil =>
          rw [found, prepend] at cut
          cases before with
          | nil => exact absurd (List.cons.inj cut).2.symm behind
          | cons first before => cases before <;> cases (List.cons.inj cut).2
      | cons next tokens =>
          rw [found] at here ih
          rw [found, prepend] at cut
          cases before with
          | nil =>
              split at cut
              next joined =>
                obtain ⟨rfl, rfl⟩ := List.cons.inj cut
                exact List.forall_mem_append.mpr
                  ⟨here joined.1 (List.cons_ne_nil _ _), @ih [] next later rfl joined.2⟩
              next =>
                obtain ⟨rfl, rfl⟩ := List.cons.inj cut
                exact here other (List.cons_ne_nil _ _)
          | cons first before =>
              split at cut
              next =>
                obtain ⟨rfl, rfl⟩ := List.cons.inj cut
                exact @ih (next :: before) token later rfl other
              next => exact ih later (List.cons.inj cut).2 other

/-! ## In front of a mark -/

/-- A mark goes on with no word and opens no marker. -/
theorem parted_mark {kind : Kind} (marks : markKind? c = some kind) (rest : Text) :
    Text.Parted (c :: rest) where
  word := endsWord_of_mark marks rest
  slash head := by
    cases head
    cases marks

/-- Padding goes on with no word and opens no marker. -/
theorem parted_padding (pads : isPadding c = true) (rest : Text) : Text.Parted (c :: rest) :=
  parted_of_head? fun _ head => .inl (Option.some.inj head ▸ pads)

/-- A text without open quotes is scanned by itself in front of a mark. -/
theorem scan_append_mark {kind : Kind} (quoteless : Quoteless (scan text))
    (marks : markKind? c = some kind)
    (rest : Text) : scan (text ++ c :: rest) = scan text ++ scan (c :: rest) := by
  have kinds : kind ≠ .other ∧ kind ≠ .padding := by
    have marked := Kind.isMark_of_markKind? marks
    constructor
    · rintro rfl
      cases marked
    · rintro rfl
      cases marked
  have apart : c ≠ '*' ∧ c ≠ '\n' := by
    unfold markKind? at marks
    split at marks <;> first | decide | cases marks
  refine scan_append_of_ends
    { parted := parted_mark marks rest
      known := ?_
      padding := ?_
      star := fun head => absurd (Option.some.inj head) apart.1
      carriage := fun head => absurd (Option.some.inj head) apart.2
      quote := fun _ => Or.inr quoteless }
  · rw [firstKind?_cons, piece_mark marks]
    exact fun same => kinds.1 (Option.some.inj same)
  · intro d head pads
    cases head
    rw [isPadding_of_mark marks] at pads
    cases pads

/-! ## How tokens end -/

/-- Only padding, line breaks and unknown text may end in padding. -/
theorem Cut.firm {d : Char} {kind : Kind} {length : Nat} (cut : Cut c rest kind length)
    (known : kind ≠ .other) (unbroken : kind ≠ .lineBreak) (firm : kind ≠ .padding)
    (last : (c :: rest.take length).getLast? = some d) : isPadding d = false := by
  by_cases inside : kind.isWithinType = true
  · have black := (isOrdinary_iff.mp (cut.isOrdinary_of_getLast? inside firm last)).1
    cases pads : isPadding d with
    | false => rfl
    | true =>
        rw [isBlank_of_isPadding pads] at black
        cases black
  · cases cut with
    | opening | closing =>
        cases last
        rfl
    | tag more starts =>
        have mem := List.mem_of_getLast? last
        rw [List.take_succ_cons, List.mem_cons, List.mem_cons] at mem
        rcases mem with rfl | rfl | mem
        · rfl
        · exact isPadding_eq_false (by decide) (by decide) starts
        · exact isPadding_eq_false (by decide) (by decide)
            (mem_take_runLength isNameChar more d mem)
    | mark rest marks =>
        cases last
        exact isPadding_of_mark marks
    | feed | carriage => exact absurd rfl unbroken
    | other => exact absurd rfl known
    | padding | varName | rooted | name | quoted | number | negative | ellipsis =>
      exact absurd rfl inside

/-! ## Tokens without escapes -/

/-- Tokens of one line, in which all blanks are padding and no quote has a backslash. -/
structure AreUnescaped (tokens : List Token) : Prop where
  whole : scan (textOf tokens) = tokens
  blank : ∀ c ∈ textOf tokens, isBlank c = true → isPadding c = true
  bare : ∀ token ∈ tokens, token.kind = .quoted → '\\' ∉ token.text

namespace AreUnescaped

variable {tokens front back : List Token} {token : Token}

theorem of_scan (blank : ∀ c ∈ text, isBlank c = true → isPadding c = true)
    (bare : ∀ token ∈ scan text, token.kind = .quoted → '\\' ∉ token.text) :
    AreUnescaped (scan text) where
  whole := congrArg scan (textOf_scan text)
  blank := by
    rw [textOf_scan]
    exact blank
  bare := bare

theorem behind (unescaped : AreUnescaped (front ++ back)) : AreUnescaped back where
  whole := by
    have drop := scan_textOf_drop (textOf (front ++ back)) front.length
    rwa [unescaped.whole, List.drop_left] at drop
  blank c mem := unescaped.blank c (by simp [mem])
  bare token mem := unescaped.bare token (List.mem_append_right _ mem)

theorem suffix (unescaped : AreUnescaped tokens) (within : back <:+ tokens) :
    AreUnescaped back := by
  obtain ⟨front, rfl⟩ := within
  exact unescaped.behind

theorem unbroken (unescaped : AreUnescaped tokens) : '\n' ∉ textOf tokens := fun mem => by
  have pads := unescaped.blank '\n' mem (by decide)
  cases pads

theorem isPiece (unescaped : AreUnescaped tokens) (mem : token ∈ tokens)
    (known : token.kind ≠ .other) :
    token.IsPiece := by
  rw [← unescaped.whole] at mem
  exact isPiece_of_mem_scan mem known

theorem ne_lineBreak (unescaped : AreUnescaped tokens) (mem : token ∈ tokens) :
    token.kind ≠ .lineBreak := by
  intro broken
  have feed := ((unescaped.isPiece mem (by simp [broken])).text_of_lineBreak broken).mem
  exact unescaped.unbroken (List.mem_flatMap.mpr ⟨token, mem, feed⟩)

/-- Unknown text that something stands behind is solid. -/
theorem isSolid (unescaped : AreUnescaped (front ++ back)) (proper : back ≠ [])
    (mem : token ∈ front)
    (other : token.kind = .other) : ∀ c ∈ token.text, Token.isSolid c = true := by
  obtain ⟨before, after, rfl⟩ := List.append_of_mem mem
  have split : scan (textOf (before ++ token :: after ++ back)) =
      before ++ token :: (after ++ back) := by
    rw [unescaped.whole]
    simp
  exact isSolid_of_other unescaped.unbroken split other (by simp [proper])

theorem quoteless (unescaped : AreUnescaped (front ++ back)) (proper : back ≠ []) :
    Quoteless front := by
  intro token mem other
  have solid := unescaped.isSolid proper mem other
  exact ⟨fun held => absurd (solid _ held) (by decide),
    fun held => absurd (solid _ held) (by decide)⟩

/-- Tokens in front of padding or of a mark are those of their own text. -/
theorem scan_front (unescaped : AreUnescaped (front ++ back)) (parted : (textOf back).Parted) :
    scan (textOf front) = front := by
  refine scan_of_append ?_ rfl parted
  rw [unescaped.behind.whole, ← textOf_append, unescaped.whole]

/-- A token in front of others begins with no padding unless it is padding itself. -/
theorem isPadding_of_head? (unescaped : AreUnescaped (token :: back)) (firm : token.kind ≠ .padding)
    (head : token.text.head? = some c) : isPadding c = false := by
  cases pads : isPadding c with
  | false => rfl
  | true =>
      obtain ⟨more, written⟩ := List.head?_eq_some_iff.mp head
      have whole := unescaped.whole
      rw [textOf_cons, written, List.cons_append, scan_cons_of_padding pads] at whole
      exact absurd (congrArg Token.kind (List.cons.inj whole).1).symm firm

/-- A token that something stands behind ends in no padding unless it is padding itself. -/
theorem isPadding_of_getLast? (unescaped : AreUnescaped (front ++ back)) (proper : back ≠ [])
    (mem : token ∈ front)
    (firm : token.kind ≠ .padding) (last : token.text.getLast? = some c) : isPadding c = false := by
  by_cases other : token.kind = .other
  · have solid := unescaped.isSolid proper mem other c (List.mem_of_getLast? last)
    simp only [Token.isSolid, Bool.and_eq_true, Bool.not_eq_true'] at solid
    exact solid.1.1
  · obtain ⟨d, rest, length, cut, written⟩ :=
      (unescaped.isPiece (List.mem_append_left _ mem) other).exists_cut rfl
    rw [written] at last
    exact cut.firm other
      (unescaped.ne_lineBreak (List.mem_append_left _ mem)) firm last

theorem text_ne_nil (unescaped : AreUnescaped tokens) (mem : token ∈ tokens) : token.text ≠ [] := by
  rw [← unescaped.whole] at mem
  exact text_ne_nil_of_mem_scan mem

theorem isBlank_eq_false (unescaped : AreUnescaped tokens) (mem : token ∈ tokens)
    (within : c ∈ token.text) (firm : isPadding c = false) : isBlank c = false := by
  cases blank : isBlank c with
  | false => rfl
  | true =>
      rw [unescaped.blank c (List.mem_flatMap.mpr ⟨token, mem, within⟩) blank] at firm
      cases firm

/-- Tokens with no padding around them cover a text with no blank around it. -/
theorem trim_textOf (unescaped : AreUnescaped (front ++ back)) (proper : back ≠ [])
    (first : ∀ token, front.head? = some token → token.kind ≠ .padding)
    (last : ∀ token, front.getLast? = some token → token.kind ≠ .padding) :
    Text.trim (textOf front) = textOf front := by
  refine Text.trim_eq_self ?begins ?ends
  case begins =>
    intro c head
    cases front with
    | nil => cases head
    | cons token front =>
        rw [textOf_cons, List.head?_append_of_ne_nil _
          (unescaped.text_ne_nil List.mem_cons_self)] at head
        refine unescaped.isBlank_eq_false List.mem_cons_self (List.mem_of_head? head) ?_
        exact unescaped.isPadding_of_head? (first token rfl) head
  case ends =>
    rintro ⟨c, final, blank⟩
    cases front using List.reverseRecOn with
    | nil => cases final
    | append_singleton front token _ =>
        have mem : token ∈ front ++ [token] :=
          List.mem_append_right _ (List.mem_singleton_self token)
        have proper' := unescaped.text_ne_nil (List.mem_append_left back mem)
        rw [textOf_append, textOf_cons, textOf_nil, List.append_nil,
          List.getLast?_append_of_ne_nil _ proper'] at final
        have firm :=
          unescaped.isPadding_of_getLast? proper mem (last token List.getLast?_concat) final
        rw [unescaped.isBlank_eq_false (List.mem_append_left back mem)
          (List.mem_of_getLast? final) firm] at blank
        cases blank

end AreUnescaped

end Token

end DocComment
