import DocComment.Proofs.Token.LineEnds
import DocComment.Proofs.Token.OneLine

/-!
# Pieces before they are joined

The scanner joins neighbours of unknown text.  Before that its pieces do not depend on what stands
in front of them (`unjoined_textOf`), and a blank that is no padding is a piece by itself, so blanks
at the ends of a text can be left out (`unjoined_append`, `exists_unjoined_of_blank`).
-/

namespace DocComment

namespace Token

/-- The pieces of a text behind the first `skip` characters. -/
def unjoinedFrom : Nat → Text → List Token
  | _, [] => []
  | skip + 1, _ :: rest => unjoinedFrom skip rest
  | 0, c :: rest => ⟨(piece c rest).1, c :: rest.take (piece c rest).2⟩ :: unjoinedFrom (piece c rest).2 rest

/-- The pieces of a text. -/
def unjoined (text : Text) : List Token :=
  unjoinedFrom 0 text

/-- Tokens of which neighbours of unknown text are joined. -/
def joined (tokens : List Token) : List Token :=
  tokens.foldr prepend []

variable {c : Char} {text rest front back lead : Text} {token : Token}
  {tokens before behind : List Token}

/-! ## Joining -/

@[simp]
theorem joined_nil : joined [] = [] := rfl

@[simp]
theorem joined_cons (token : Token) (tokens : List Token) :
    joined (token :: tokens) = prepend token (joined tokens) :=
  rfl

theorem textOf_joined (tokens : List Token) : textOf (joined tokens) = textOf tokens := by
  induction tokens with
  | nil => rfl
  | cons token tokens ih => rw [joined_cons, textOf_prepend, textOf_cons, ih]

theorem joined_append_of_known (known : ∀ token ∈ before, token.kind ≠ .other)
    (behind : List Token) :
    joined (before ++ behind) = before ++ joined behind := by
  induction before with
  | nil => rfl
  | cons token before ih =>
      obtain ⟨first, others⟩ := List.forall_mem_cons.mp known
      rw [List.cons_append, joined_cons, ih others, prepend_of_known first, List.cons_append]

theorem head?_joined (tokens : List Token) :
    (joined tokens).head?.map Token.kind = tokens.head?.map Token.kind := by
  cases tokens with
  | nil => rfl
  | cons token tokens =>
      rw [joined_cons]
      cases joined tokens with
      | nil => rfl
      | cons next others =>
          rw [prepend]
          split
          next both => exact congrArg some both.1.symm
          next => rfl

/-- A token of known kind divides what is joined. -/
theorem joined_append_cons (known : token.kind ≠ .other) (before behind : List Token) :
    joined (before ++ token :: behind) = joined before ++ token :: joined behind := by
  induction before with
  | nil => exact prepend_of_known known _
  | cons first before ih =>
      rw [List.cons_append, joined_cons, joined_cons, ih]
      refine prepend_append ?_
      rintro next ⟨⟩
      exact known

/-- Joining keeps the kinds of tokens. -/
theorem kind_of_mem_joined (mem : token ∈ joined tokens) :
    ∃ found ∈ tokens, found.kind = token.kind := by
  induction tokens generalizing token with
  | nil => cases mem
  | cons first tokens ih =>
      rw [joined_cons] at mem
      cases known : joined tokens with
      | nil =>
          rw [known] at mem
          cases List.mem_singleton.mp mem
          exact ⟨first, List.mem_cons_self, rfl⟩
      | cons next others =>
          rw [known, prepend] at mem
          have behind (within : token ∈ next :: others) :
              ∃ found ∈ first :: tokens, found.kind = token.kind := by
            obtain ⟨found, mem, same⟩ := ih (known ▸ within)
            exact ⟨found, List.mem_cons_of_mem _ mem, same⟩
          split at mem
          next both =>
            rcases List.mem_cons.mp mem with rfl | mem
            · exact ⟨first, List.mem_cons_self, both.1⟩
            · exact behind (List.mem_cons_of_mem _ mem)
          next =>
            rcases List.mem_cons.mp mem with rfl | mem
            · exact ⟨token, List.mem_cons_self, rfl⟩
            · exact behind mem

/-- Known tokens in front are not joined. -/
theorem exists_of_joined (known : ∀ token ∈ before, token.kind ≠ .other)
    (cut : joined tokens = before ++ behind) :
    ∃ others, tokens = before ++ others ∧ joined others = behind := by
  induction before generalizing tokens with
  | nil => exact ⟨tokens, rfl, cut⟩
  | cons first before ih =>
      obtain ⟨dark, others⟩ := List.forall_mem_cons.mp known
      cases tokens with
      | nil => cases cut
      | cons next tokens =>
          have kind : next.kind = first.kind := by
            have heads := head?_joined (next :: tokens)
            rw [cut] at heads
            exact (Option.some.inj heads).symm
          rw [joined_cons, prepend_of_known (kind ▸ dark), List.cons_append] at cut
          obtain ⟨rfl, inner⟩ := List.cons.inj cut
          obtain ⟨rest, rfl, same⟩ := ih others inner
          exact ⟨rest, rfl, same⟩

/-- What is put in front of a token of known kind does not reach it. -/
theorem exists_of_prepend_cons {first : Token} {found : List Token} (known : token.kind ≠ .other)
    (cut : prepend first found = before ++ token :: behind) :
    (before = [] ∧ first = token ∧ found = behind) ∨
      ∃ inner, found = inner ++ token :: behind ∧ prepend first inner = before := by
  cases found with
  | nil =>
      cases before with
      | nil =>
          cases cut
          exact Or.inl ⟨rfl, rfl, rfl⟩
      | cons next before =>
          have lengths := congrArg List.length cut
          simp only [prepend, List.cons_append, List.length_cons, List.length_append,
            List.length_nil] at lengths
          omega
  | cons next found =>
      rw [prepend] at cut
      split at cut
      next both =>
        cases before with
        | nil =>
            cases cut
            exact absurd rfl known
        | cons whole before =>
            obtain ⟨rfl, rfl⟩ := List.cons.inj cut
            exact Or.inr ⟨next :: before, rfl, if_pos both⟩
      next apart =>
        cases before with
        | nil =>
            obtain ⟨rfl, rfl⟩ := List.cons.inj cut
            exact Or.inl ⟨rfl, rfl, rfl⟩
        | cons whole before =>
            obtain ⟨rfl, inner⟩ := List.cons.inj cut
            refine Or.inr ⟨before, inner, ?_⟩
            cases before with
            | nil => rfl
            | cons second before =>
                obtain ⟨rfl, -⟩ := List.cons.inj inner
                exact if_neg apart

/-- A token of known kind was not joined with its neighbours. -/
theorem exists_of_joined_cons (known : token.kind ≠ .other)
    (cut : joined tokens = before ++ token :: behind) :
    ∃ first last, tokens = first ++ token :: last ∧ joined first = before ∧
      joined last = behind := by
  induction tokens generalizing before with
  | nil => cases before <;> cases cut
  | cons next tokens ih =>
      rcases exists_of_prepend_cons known cut with ⟨rfl, rfl, rfl⟩ | ⟨inner, found, rfl⟩
      · exact ⟨[], tokens, rfl, rfl, rfl⟩
      · obtain ⟨first, last, rfl, rfl, rfl⟩ := ih found
        exact ⟨next :: first, last, rfl, rfl, rfl⟩

/-! ## Pieces -/

theorem unjoinedFrom_eq (skip : Nat) (text : Text) :
    unjoinedFrom skip text = unjoined (text.drop skip) := by
  induction text generalizing skip with
  | nil => rw [List.drop_nil, unjoined, unjoinedFrom, unjoinedFrom]
  | cons c rest ih =>
      cases skip with
      | zero => rfl
      | succ skip => exact ih skip

theorem unjoined_nil : unjoined [] = [] := rfl

theorem unjoined_cons (c : Char) (rest : Text) :
    unjoined (c :: rest) = ⟨(piece c rest).1, c :: rest.take (piece c rest).2⟩ ::
      unjoined (rest.drop (piece c rest).2) := by
  rw [← unjoinedFrom_eq]
  rfl

theorem joined_unjoined (text : Text) : joined (unjoined text) = scan text := by
  induction text using piecewise with
  | nil => rfl
  | cons c rest ih => rw [unjoined_cons, joined_cons, ih, scan_cons]

theorem textOf_unjoined (text : Text) : textOf (unjoined text) = text := by
  rw [← textOf_joined, joined_unjoined, textOf_scan]

/-- What stands in front of a piece does not matter to it. -/
theorem unjoined_textOf (cut : unjoined text = before ++ behind) :
    unjoined (textOf behind) = behind := by
  induction before generalizing text with
  | nil =>
      rw [List.nil_append] at cut
      rw [← cut, textOf_unjoined]
  | cons first before ih =>
      cases text with
      | nil => cases cut
      | cons c rest =>
          rw [unjoined_cons] at cut
          exact ih (List.cons.inj cut).2

theorem exists_piece (cut : unjoined text = token :: behind) :
    ∃ c rest, text = c :: rest ∧ token = ⟨(piece c rest).1, c :: rest.take (piece c rest).2⟩ ∧
      textOf behind = rest.drop (piece c rest).2 := by
  cases text with
  | nil => cases cut
  | cons c rest =>
      rw [unjoined_cons] at cut
      obtain ⟨rfl, rfl⟩ := List.cons.inj cut
      exact ⟨c, rest, rfl, rfl, textOf_unjoined _⟩

/-- A text goes on with other text behind it without a change to its pieces. -/
theorem unjoined_append_of_stops (parted : rest.Parted)
    (stops : ∀ c more, c :: more <:+ front → unjoined (c :: more) <:+ unjoined front →
      Stops c more rest) :
    unjoined (front ++ rest) = unjoined front ++ unjoined rest := by
  induction front using piecewise with
  | nil => rfl
  | cons c more ih =>
      have same := piece_append (stops c more (List.suffix_refl _) (List.suffix_refl _)) parted
      have within := piece_le c more
      rw [List.cons_append, unjoined_cons, unjoined_cons, same,
        List.take_append_of_le_length within, List.drop_append_of_le_length within,
        List.cons_append, ih]
      intro d others suffix pieces
      refine stops d others (suffix.trans ?_) (pieces.trans ?_)
      · exact (List.drop_suffix _ _).trans (List.suffix_cons c more)
      · rw [unjoined_cons]
        exact List.suffix_cons _ _

/-! ## Blanks -/

/-- A blank that is no padding and breaks no line is a piece by itself. -/
theorem piece_of_blank (blank : isBlank c = true) (hard : isPadding c = false) (unbroken : c ≠ '\n')
    (carriage : c = '\r' → rest.head? ≠ some '\n') : piece c rest = (.other, 0) := by
  have other {d : Char} (dark : isBlank d = false) : c ≠ d := ne_of_class dark blank
  have ordinary : isOrdinary c = false := by
    rw [isOrdinary, blank]
    rfl
  have start : isNameStart c = false := Bool.eq_false_iff.mpr fun starts =>
    Bool.eq_false_iff.mp ordinary (isOrdinary_of_isNameStart starts)
  have digit : c.isDigit = false := Bool.eq_false_iff.mpr fun digit =>
    Bool.eq_false_iff.mp ordinary (isOrdinary_of_isDigit digit)
  have mark : markKind? c = none := Option.eq_none_iff_forall_ne_some.mpr fun kind marks =>
    Bool.eq_false_iff.mp ordinary (isOrdinary_of_mark marks)
  have quote : ¬ (decide (c = '"') || decide (c = '\'')) = true := by
    rw [Bool.or_eq_true, decide_eq_true_eq, decide_eq_true_eq, not_or]
    exact ⟨other (by decide), other (by decide)⟩
  unfold piece
  rw [if_neg unbroken]
  by_cases returns : c = '\r'
  · rw [if_pos returns]
    cases rest with
    | nil => rfl
    | cons d rest =>
        have apart : d ≠ '\n' := fun same => carriage returns (congrArg some same)
        split
        next more stands => exact absurd (List.cons.inj stands).1 apart
        next => rfl
  · rw [if_neg returns, hard, start, digit, mark, if_neg Bool.false_ne_true,
      if_neg (other (by decide)), if_neg (other (by decide)), if_neg (other (by decide)),
      if_neg (other (by decide)), if_neg (other (by decide)), if_neg Bool.false_ne_true,
      if_neg quote, if_neg Bool.false_ne_true, if_neg (other (by decide)),
      if_neg (other (by decide))]

/-- Padding at the beginning of a text is one piece. -/
theorem unjoined_of_padding (pads : isPadding c = true)
    (firm : ∀ d, rest.head? = some d → isPadding d = false) (more : Text) :
    unjoined (c :: (more ++ rest)) =
      ⟨.padding, c :: more.take (runLength isPadding more)⟩ ::
        unjoined (more.drop (runLength isPadding more) ++ rest) := by
  have within : runLength isPadding more ≤ more.length := (List.takeWhile_prefix _).length_le
  rw [unjoined_cons, piece_padding pads, runLength_append_of_stops firm,
    List.take_append_of_le_length within, List.drop_append_of_le_length within]

theorem unjoined_of_blank (blank : isBlank c = true) (hard : isPadding c = false)
    (unbroken : c ≠ '\n') (carriage : c = '\r' → rest.head? ≠ some '\n') :
    unjoined (c :: rest) = ⟨.other, [c]⟩ :: unjoined rest := by
  rw [unjoined_cons, piece_of_blank blank hard unbroken carriage]
  rfl

/-- Blank tokens within a line. -/
def AreSoft (tokens : List Token) : Prop :=
  ∀ token ∈ tokens, (token.kind = .padding ∨ token.kind = .other) ∧ ∀ c ∈ token.text, isBlank c = true

theorem exists_unjoined_of_blank (blank : ∀ c ∈ lead, isBlank c = true) (unbroken : '\n' ∉ lead)
    (firm : ∀ c, rest.head? = some c → isPadding c = false)
    (carriage : rest.head? = some '\n' → lead.getLast? ≠ some '\r') :
    ∃ soft, unjoined (lead ++ rest) = soft ++ unjoined rest ∧ textOf soft = lead ∧
      AreSoft soft := by
  induction known : lead.length using Nat.strong_induction_on generalizing lead with
  | _ length ih =>
    cases lead with
    | nil => exact ⟨[], rfl, rfl, nofun⟩
    | cons c more =>
        have further (count : Nat) :
            ∃ soft, unjoined (more.drop count ++ rest) = soft ++ unjoined rest ∧
              textOf soft = more.drop count ∧ AreSoft soft := by
          have suffix : more.drop count <:+ c :: more :=
            (List.drop_suffix _ _).trans (List.suffix_cons c more)
          have shorter : (more.drop count).length < length := by
            rw [← known, List.length_cons, List.length_drop]
            omega
          exact ih _ shorter (fun d mem => blank d (suffix.subset mem))
            (fun mem => unbroken (suffix.subset mem))
            (fun head last => carriage head (Text.getLast?_of_suffix suffix last)) rfl
        cases pads : isPadding c with
        | true =>
            obtain ⟨soft, cut, covers, blank'⟩ := further (runLength isPadding more)
            refine ⟨⟨.padding, c :: more.take (runLength isPadding more)⟩ :: soft, ?_, ?_, ?_⟩
            · rw [List.cons_append, unjoined_of_padding pads firm, cut]
              rfl
            · rw [textOf_cons, covers, List.cons_append, List.take_append_drop]
            · refine List.forall_mem_cons.mpr ⟨⟨Or.inl rfl, fun d mem => blank d ?_⟩, blank'⟩
              exact List.cons_subset_cons c (List.take_subset _ _) mem
        | false =>
            have other : c ≠ '\n' := fun same => unbroken (same ▸ List.mem_cons_self)
            have lone : c = '\r' → (more ++ rest).head? ≠ some '\n' := by
              intro returns head
              cases more with
              | nil => exact carriage head (by rw [returns]; rfl)
              | cons d more =>
                  cases head
                  exact unbroken (List.mem_cons_of_mem _ List.mem_cons_self)
            obtain ⟨soft, cut, covers, blank'⟩ := further 0
            rw [List.drop_zero] at cut covers
            refine ⟨⟨.other, [c]⟩ :: soft, ?_, ?_, ?_⟩
            · rw [List.cons_append, unjoined_of_blank (blank c List.mem_cons_self) pads other lone,
                cut]
              rfl
            · rw [textOf_cons, covers]
              rfl
            · refine List.forall_mem_cons.mpr ⟨⟨Or.inr rfl, fun d mem => ?_⟩, blank'⟩
              rw [List.mem_singleton.mp mem]
              exact blank c List.mem_cons_self

/-! ## Texts that blanks or a closing marker follow -/

theorem Quoteless.of_subset {others : List Token} (quoteless : Quoteless tokens)
    (subset : others ⊆ tokens) :
    Quoteless others := fun token mem =>
  quoteless token (subset mem)

/-- Joining hides no quote. -/
theorem quoteless_of_joined (quoteless : Quoteless (joined tokens)) : Quoteless tokens := by
  induction tokens with
  | nil => exact nofun
  | cons first tokens ih =>
      rw [joined_cons] at quoteless
      have inner {token : Token} (mem : token = first ∨ token ∈ joined tokens)
          (other : token.kind = .other) :
          '"' ∉ token.text ∧ '\'' ∉ token.text := by
        obtain ⟨whole, within, kind, subset⟩ := exists_mem_prepend mem
        obtain ⟨double, single⟩ := quoteless whole within (kind.trans other)
        exact ⟨fun held => double (subset held), fun held => single (subset held)⟩
      intro token mem
      rcases List.mem_cons.mp mem with rfl | mem
      · exact inner (Or.inl rfl)
      · exact ih (fun token mem => inner (Or.inr mem)) token mem

/-- An open quote is a piece of unknown text. -/
theorem not_quoteless_of_open {more : Text} {count : Nat} (quote : c = '"' ∨ c = '\'')
    (left : quotedLength c more = (false, count)) : ¬ Quoteless (unjoined (c :: more)) := by
  intro quoteless
  rw [unjoined_cons, piece_quote quote, left] at quoteless
  obtain ⟨double, single⟩ := quoteless _ List.mem_cons_self rfl
  rcases quote with rfl | rfl
  · exact double List.mem_cons_self
  · exact single List.mem_cons_self

/-- Behind a text that does not end in a blank only an open quote reaches into blanks. -/
theorem stops_of_firm {more : Text} (firm : ∀ d, (c :: more).getLast? = some d → isBlank d = false)
    (soft : ∀ d, rest.head? = some d → isBlank d = true)
    (quote : c = '"' ∨ c = '\'' → quotedLength c more = (false, more.length) → rest = [] ∨
      rest.head? = some '\n') :
    Stops c more rest := by
  have last {p : Char → Bool} (class? : ∀ d, p d = true → isBlank d = true)
      (all : ∀ d ∈ c :: more, p d = true) : False := by
    have ends := List.getLast?_eq_some_getLast (List.cons_ne_nil c more)
    have dark := firm _ ends
    rw [class? _ (all _ (List.getLast_mem _))] at dark
    cases dark
  have indent (d : Char) (white : (isPadding d || d == '\n' || d == '\r') = true) :
      isBlank d = true := by
    rw [Bool.or_eq_true, Bool.or_eq_true, beq_iff_eq, beq_iff_eq] at white
    rcases white with (pads | rfl) | rfl
    · exact isBlank_of_isPadding pads
    · decide
    · decide
  have padded {pads : Text} (all : ∀ d ∈ pads, isPadding d = true) :
      ∀ d ∈ pads, (isPadding d || d == '\n' || d == '\r') = true := fun d mem => by
    rw [all d mem]
    rfl
  refine ⟨fun pads stands all => ?_, fun pads all => ?_, ?_, fun _ _ star => ?_, quote⟩
  · refine (last indent ?_).elim
    rcases stands with stands | stands
    · rw [stands]
      exact List.forall_mem_cons.mpr ⟨rfl, padded all⟩
    · rw [stands]
      exact List.forall_mem_cons.mpr ⟨rfl, List.forall_mem_cons.mpr ⟨rfl, padded all⟩⟩
  · exact (last (fun _ => isBlank_of_isPadding) (List.forall_mem_cons.mpr ⟨pads, all⟩)).elim
  · rintro rfl rfl
    cases firm _ rfl
  · cases soft _ star

theorem parted_of_soft (soft : ∀ d, rest.head? = some d → isBlank d = true) : rest.Parted where
  word c head := by
    have dark : isOrdinary c = false := by
      rw [isOrdinary, soft c head]
      rfl
    refine ⟨Bool.eq_false_iff.mpr fun name => ?_, ?_, ?_⟩
    · rw [isOrdinary_of_isNameChar name] at dark
      cases dark
    · rintro rfl
      cases dark
    · rintro rfl
      cases dark
  slash head := by cases soft _ head

/-- Blanks behind a text without open quotes leave its pieces as they are. -/
theorem unjoined_append (quoteless : Quoteless (unjoined front))
    (firm : ∀ d, front.getLast? = some d → isBlank d = false)
    (soft : ∀ d, rest.head? = some d → isBlank d = true) :
    unjoined (front ++ rest) = unjoined front ++ unjoined rest := by
  refine unjoined_append_of_stops (parted_of_soft soft) fun c more suffix pieces => ?_
  refine stops_of_firm (fun d last => firm d (Text.getLast?_of_suffix suffix last)) soft
    fun quote left => ?_
  exact absurd (quoteless.of_subset pieces.subset) (not_quoteless_of_open quote left)

theorem isBlank_of_head?_trail {middle : Text} (soft : ∀ d ∈ middle, isBlank d = true)
    (ends : rest = [] ∨ rest.head? = some '\n') :
    ∀ d, (middle ++ rest).head? = some d → isBlank d = true := by
  intro d head
  cases middle with
  | cons e middle =>
      cases head
      exact soft _ List.mem_cons_self
  | nil =>
      rcases ends with rfl | ends
      · cases head
      · rw [List.nil_append, ends] at head
        cases head
        decide

/-- An open quote reaches over blanks to the end of its line, so where none is left
open there was none. -/
theorem quoteless_front {middle : Text}
    (quoteless : Quoteless (unjoined (front ++ (middle ++ rest))))
    (firm : ∀ d, front.getLast? = some d → isBlank d = false)
    (soft : ∀ d ∈ middle, isBlank d = true)
    (unbroken : '\n' ∉ middle) (ends : rest = [] ∨ rest.head? = some '\n') :
    Quoteless (unjoined front) := by
  have blank := isBlank_of_head?_trail soft ends
  induction front using piecewise with
  | nil => exact nofun
  | cons c more ih =>
      have plain (quote : c = '"' ∨ c = '\'') : ∀ d ∈ middle, d ≠ c ∧ d ≠ '\n' ∧ d ≠ '\\' := by
        intro d mem
        refine ⟨?_, fun same => unbroken (same ▸ mem), ne_of_class (by decide) (soft d mem)⟩
        rcases quote with rfl | rfl
        · exact ne_of_class (by decide) (soft d mem)
        · exact ne_of_class (by decide) (soft d mem)
      have stops : Stops c more (middle ++ rest) := by
        refine stops_of_firm firm blank fun quote left => ?_
        exact absurd quoteless
          (not_quoteless_of_open quote (quotedLength_append_of_open left (plain quote) ends))
      have same := piece_append stops (parted_of_soft blank)
      have within := piece_le c more
      rw [List.cons_append, unjoined_cons, same, List.take_append_of_le_length within,
        List.drop_append_of_le_length within] at quoteless
      obtain ⟨first, others⟩ := List.forall_mem_cons.mp quoteless
      rw [unjoined_cons]
      refine List.forall_mem_cons.mpr ⟨first, ih others fun d last => firm d ?_⟩
      have suffix : more.drop (piece c more).2 <:+ c :: more :=
        (List.drop_suffix _ _).trans (List.suffix_cons c more)
      obtain ⟨front, whole⟩ := suffix
      rw [← whole, List.getLast?_append, last]
      rfl

/-! ## Line breaks -/

theorem Cut.feed_or {kind : Kind} {length : Nat} (cut : Cut c rest kind length)
    (broken : kind = .lineBreak) :
    (c = '\n' ∧ length = decorationLength rest) ∨
      ∃ more, c = '\r' ∧ rest = '\n' :: more ∧ length = decorationLength more + 1 := by
  cases cut with
  | feed => exact Or.inl ⟨rfl, rfl⟩
  | carriage more => exact Or.inr ⟨more, rfl, rfl, rfl⟩
  | mark rest marks =>
      rw [broken] at marks
      cases Kind.isMark_of_markKind? marks
  | _ => cases broken

end Token

end DocComment
