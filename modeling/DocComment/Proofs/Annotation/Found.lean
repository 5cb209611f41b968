import DocComment.Proofs.Annotation.Canonical

/-!
# Annotations that were read

What is read from tokens without escapes is canonical (`isPayload_of_read`), unless an
argument without a key has nothing in it: such a gap is not written back.  The induction is on
the depth of calls and, within one call, on its arguments.
-/

namespace DocComment

open Token

namespace ArgumentValue

/-! ## Gaps -/

/-- Whether a value is a literal with nothing in it. -/
def isEmptyLiteral : ArgumentValue → Bool
  | .literal text => text.isEmpty
  | _ => false

mutual

/-- Whether a call in the value has an argument without a key and with nothing in it. -/
def hasGap : ArgumentValue → Bool
  | .quoted _ _ | .literal _ => false
  | .nested call => callHasGap call

/-- Whether the call, or one in it, has such an argument. -/
def callHasGap : Call ArgumentValue → Bool
  | ⟨_, _, _, arguments, _, _⟩ => argumentsHaveGap arguments

/-- Whether such an argument is among the given ones or in them. -/
def argumentsHaveGap : List (Argument ArgumentValue) → Bool
  | [] => false
  | ⟨_, value, positional⟩ :: arguments =>
      positional && isEmptyLiteral value || hasGap value || argumentsHaveGap arguments

end

theorem callHasGap_eq (call : Annotation) : callHasGap call = argumentsHaveGap call.arguments := by
  obtain ⟨_, _, _, _, _, _⟩ := call
  rw [callHasGap]

theorem argumentsHaveGap_cons {argument : Argument ArgumentValue}
    {others : List (Argument ArgumentValue)} :
    argumentsHaveGap (argument :: others) = false ↔
      argumentsHaveGap [argument] = false ∧ argumentsHaveGap others = false := by
  obtain ⟨key, value, positional⟩ := argument
  simp [argumentsHaveGap]

end ArgumentValue

namespace Annotation

namespace Grammar

open Read Cursor ArgumentValue

variable {naming : Naming} {cursor after : Cursor} {token : Token} {tokens front back : List Token}

/-! ## In front of padding and a mark -/

/-- Padding and then a mark, or the mark alone, goes on with no token in front of it. -/
theorem parted_of_padding {pads : List Token}
    (unescaped : AreUnescaped (front ++ (pads ++ token :: back)))
    (soft : ∀ next ∈ pads, next.kind = .padding) (marked : token.kind.isMark = true) :
    (textOf (pads ++ token :: back)).Parted := by
  have behind := unescaped.behind
  cases pads with
  | nil =>
      have known : token.kind ≠ .other := fun same => by
        rw [same] at marked
        cases marked
      obtain ⟨c, written, marks⟩ := (behind.isPiece List.mem_cons_self known).exists_mark marked
      rw [List.nil_append, textOf_cons, written]
      exact parted_mark marks _
  | cons pad pads =>
      have kind := soft pad List.mem_cons_self
      have piece := behind.isPiece List.mem_cons_self (by rw [kind]; decide)
      have blank := piece.text_of_padding kind
      obtain ⟨c, rest, length, -, written⟩ := piece
      rw [written] at blank
      rw [List.cons_append, textOf_cons, written]
      exact parted_padding (blank c List.mem_cons_self) _

/-! ## Literals -/

section Literal

variable {inner pads : List Token}

theorem isBlank_of_mem_padding (unescaped : AreUnescaped (pads ++ back))
    (soft : ∀ pad ∈ pads, pad.kind = .padding) :
    ∀ c ∈ textOf pads, isBlank c = true := by
  intro c mem
  obtain ⟨pad, held, within⟩ := List.mem_flatMap.mp mem
  have piece := unescaped.isPiece (List.mem_append_left _ held) (by simp [soft pad held])
  exact isBlank_of_isPadding (piece.text_of_padding (soft pad held) c within)

/-- Nothing has to be cleaned of tokens without escapes but the padding around them. -/
theorem literalText_of_padded (unescaped : AreUnescaped (inner ++ (pads ++ back)))
    (soft : ∀ pad ∈ pads, pad.kind = .padding) (trimmed : Text.trim (textOf inner) = textOf inner) :
    literalText (inner ++ pads) = textOf inner := by
  rw [literalText_of_unbroken, textOf_append,
    Text.trim_append_of_blank (isBlank_of_mem_padding unescaped.behind soft), trimmed]
  intro next mem
  refine unescaped.ne_lineBreak ?_
  rcases List.mem_append.mp mem with mem | mem
  · exact List.mem_append_left _ mem
  · exact List.mem_append_right _ (List.mem_append_left _ mem)

/-- Tokens in front of padding and the mark that ends an argument are a literal by themselves. -/
theorem isLiteral_of_padded (unescaped : AreUnescaped (inner ++ (pads ++ token :: back)))
    (soft : ∀ pad ∈ pads, pad.kind = .padding) (ends : endsArgument token = true)
    (closed : depthBehindAll? 0 inner = some 0) (trimmed : Text.trim (textOf inner) = textOf inner)
    (unquoted : inner.head?.map Token.kind ≠ some .quoted)
    (uncalled : Grammar.opensCall inner = false) :
    IsLiteral (textOf inner) ∧ scan (textOf inner) = inner := by
  have proper : pads ++ token :: back ≠ [] :=
    List.append_ne_nil_of_right_ne_nil _ (List.cons_ne_nil _ _)
  have cut := unescaped.scan_front (parted_of_padding unescaped soft (isMark_of_endsArgument ends))
  have unbroken : '\n' ∉ textOf inner := fun feed => unescaped.unbroken (by
    rw [textOf_append]
    exact List.mem_append_left _ feed)
  refine ⟨⟨trimmed, unbroken, ?_, ?_, ?_, ?_⟩, cut⟩
  · rw [cut]
    exact unescaped.quoteless proper
  · rw [cut]
    exact closed
  · rw [firstKind?, cut]
    exact unquoted
  · rw [cut]
    exact uncalled

/-- A literal that ends in front of a mark is, without its padding, one that is
read from its own text. -/
theorem isLiteral_of_read (unescaped : AreUnescaped cursor.rest)
    (firm : cursor.kind? ≠ some .padding)
    (unquoted : cursor.kind? ≠ some .quoted) (uncalled : Grammar.opensCall cursor.rest = false)
    (behind : cursor.rest.drop (literalLength 0 cursor.rest) = token :: back) :
    IsLiteral (literalText (cursor.rest.take (literalLength 0 cursor.rest))) ∧
      scan (literalText (cursor.rest.take (literalLength 0 cursor.rest))) <+: cursor.rest := by
  obtain ⟨closed, ends⟩ := ends_of_literalLength behind
  have whole := List.take_append_drop (literalLength 0 cursor.rest) cursor.rest
  rw [behind] at whole
  generalize cursor.rest.take (literalLength 0 cursor.rest) = front at closed whole
  obtain ⟨inner, pads, rfl, soft, last⟩ := exists_firm front
  rw [depthBehindAll?_padding soft] at closed
  rw [List.append_assoc] at whole
  rw [← whole] at unescaped uncalled
  rw [kind?, ← whole] at firm unquoted
  have first (next : Token) (head : inner.head? = some next) :
      next.kind ≠ .padding := fun pads => by
    obtain ⟨others, rfl⟩ := List.head?_eq_some_iff.mp head
    exact firm (congrArg some pads)
  have trimmed :=
    unescaped.trim_textOf (List.append_ne_nil_of_right_ne_nil _ (List.cons_ne_nil _ _)) first last
  have unquoted : inner.head?.map Token.kind ≠ some .quoted := by
    cases inner with
    | nil => simp
    | cons next others => exact unquoted
  have uncalled : Grammar.opensCall inner = false := by
    cases opens : Grammar.opensCall inner with
    | false => rfl
    | true =>
        rw [opensCall_append opens] at uncalled
        cases uncalled
  obtain ⟨literal, cut⟩ := isLiteral_of_padded unescaped soft ends closed trimmed unquoted uncalled
  rw [literalText_of_padded unescaped soft trimmed, cut]
  exact ⟨literal, _, whole⟩

end Literal

/-! ## Quotes -/

/-- A quote without a backslash is written as it was read. -/
theorem isQuote_of_isPiece (piece : token.IsPiece) (quoted : token.kind = .quoted)
    (bare : '\\' ∉ token.text) :
    IsQuote (Text.Quoted.decode token.text) (token.text.headD '"') := by
  have sole := isSole_of_isPiece piece (by rw [quoted]; rfl)
  rw [quoted] at sole
  obtain ⟨c, rest, length, cut, written⟩ := piece.exists_cut quoted
  cases cut with
  | quoted mark closed =>
      rw [written, List.mem_cons, not_or] at bare
      obtain ⟨body, taken, plain⟩ := exists_body_of_closed closed bare.2
      rw [taken] at written bare
      have encoded :=
        Text.Quoted.encode_plain mark plain fun mem => bare.2 (List.mem_append_left _ mem)
      have decoded := Text.Quoted.decode_plain mark plain
      rw [encoded, ← written] at decoded
      rw [decoded, written, List.headD_cons]
      exact ⟨by rw [encoded, ← written]; exact sole, by rw [encoded, ← written]; exact decoded⟩
  | mark _ marks => cases Kind.isMark_of_markKind? marks

/-! ## Names of calls -/

theorem scan_front_of_dropWhile {more : List Token} (unescaped : AreUnescaped (front ++ more))
    (behind : (more.dropWhile fun next => next.kind == .padding) = token :: back)
    (marked : token.kind.isMark = true) :
    scan (textOf front) = front := by
  have split :=
    List.takeWhile_append_dropWhile (p := fun next : Token => next.kind == .padding) (l := more)
  rw [behind] at split
  rw [← split] at unescaped
  refine unescaped.scan_front (parted_of_padding unescaped (fun next mem => ?_) marked)
  simpa using List.mem_takeWhile_imp mem

/-- The name of a call that was read, in front of its parentheses or of the end of its argument. -/
theorem isCallName_of_read {middle : Cursor} {written : Text} {parenthesised : Bool}
    (unescaped : AreUnescaped cursor.rest) (opens : Grammar.opensCall cursor.rest = true)
    (run : writtenName cursor = .ok written middle) (behind : middle.rest = token :: back)
    (marked : token.kind.isMark = true) (round : token.kind = .roundOpen → parenthesised = true) :
    IsCallName parenthesised written := by
  cases stands : cursor.rest with
  | nil =>
      rw [stands] at opens
      cases opens
  | cons first rest =>
      rw [stands, Grammar.opensCall, Bool.or_eq_true, beq_iff_eq, Bool.and_eq_true,
        beq_iff_eq] at opens
      rw [stands] at unescaped
      rcases writtenName_cases stands run with ⟨rfl, after⟩ |
        ⟨second, more, rfl, named, tagged, rfl, after⟩
      · have cut :=
          @scan_front_of_dropWhile _ [first] _ _ unescaped (after.symm.trans behind) marked
        rw [textOf_cons, textOf_nil, List.append_nil] at cut
        rw [IsCallName, cut]
        rcases opens with tag | ⟨name, next⟩
        · exact Or.inl (by rw [List.map_singleton, tag])
        · refine Or.inr (Or.inr ⟨by rw [List.map_singleton, name], round ?_⟩)
          cases rest with
          | nil => cases next
          | cons next' others =>
              have kind : next'.kind = .roundOpen := by simpa using next
              rw [List.dropWhile_cons_of_neg (by simp [kind]), behind] at after
              rw [(List.cons.inj after).1]
              exact kind
      · have cut :=
          @scan_front_of_dropWhile _ [first, second] _ _ unescaped (after.symm.trans behind) marked
        rw [textOf_cons, textOf_cons, textOf_nil, List.append_nil] at cut
        rcases opens with tag | ⟨-, next⟩
        · exact Or.inr (Or.inl (by rw [cut, List.map_cons, List.map_singleton, tag, named]))
        · simp [named] at next

/-! ## Values -/

/-- What calls give, read from tokens without escapes, is canonical but for gaps. -/
def GivesCanonical (naming : Naming) (call : Text → Read Annotation) : Prop :=
  ∀ {name : Text} {cursor after : Cursor} {found : Annotation}, AreUnescaped cursor.rest →
    call name cursor = .ok found after → callHasGap found = false → IsCall naming name found

/-- The cursor stands, but for padding and line breaks, at the end of an argument. -/
def AtArgumentEnd (cursor : Cursor) : Prop :=
  cursor.skipBreaks.kind? = some .comma ∨ cursor.skipBreaks.kind? = some .roundClose

theorem AtArgumentEnd.exists_token (ends : AtArgumentEnd cursor) :
    ∃ token back, cursor.rest = token :: back := by
  cases stands : cursor.rest with
  | nil =>
      rw [AtArgumentEnd, Cursor.skipBreaks, skipWhile, kind?, stands] at ends
      rcases ends with comma | close
      · cases comma
      · cases close
  | cons token back => exact ⟨token, back, rfl⟩

/-- Where neither padding nor a line break stands, the end of the argument is right there. -/
theorem AtArgumentEnd.isMark (ends : AtArgumentEnd cursor) (stands : cursor.rest = token :: back)
    (padding : token.kind ≠ .padding) (lineBreak : token.kind ≠ .lineBreak) :
    token.kind.isMark = true ∧ token.kind ≠ .roundOpen := by
  have here : cursor.skipBreaks.kind? = some token.kind := by
    rw [Cursor.skipBreaks, skipWhile, kind?, stands]
    dsimp only
    rw [List.dropWhile_cons_of_neg (by simp [padding, lineBreak])]
    rfl
  rw [AtArgumentEnd, here, Option.some.injEq, Option.some.injEq] at ends
  rcases ends with comma | close
  · rw [comma]
    exact ⟨rfl, by decide⟩
  · rw [close]
    exact ⟨rfl, by decide⟩

/-- Behind a written name the padding is skipped. -/
theorem kind?_of_writtenName {written : Text} (run : writtenName cursor = .ok written after) :
    after.kind? ≠ some .padding := by
  have skipped (rest : List Token)
      (behind : after.rest = rest.dropWhile fun token => token.kind == .padding) :
      after.kind? ≠ some .padding := by
    intro pads
    rw [kind?, behind, Option.map_eq_some_iff] at pads
    obtain ⟨token, head, kind⟩ := pads
    have other := List.head?_dropWhile_not (fun token : Token => token.kind == .padding) rest
    rw [head] at other
    simp [kind] at other
  cases stands : cursor.rest with
  | nil =>
      obtain ⟨passed, rest⟩ := cursor
      cases stands
      cases run
      intro pads
      cases pads
  | cons first rest =>
      rcases writtenName_cases stands run with ⟨-, behind⟩ | ⟨_, more, -, -, -, -, behind⟩
      · exact skipped rest behind
      · exact skipped more behind

variable {depth : Nat}

theorem isCanonical_of_nestedCall (calls : GivesCanonical naming (call naming depth))
    {found : Annotation}
    (unescaped : AreUnescaped cursor.rest) (opens : Grammar.opensCall cursor.rest = true)
    (run : nestedCall naming (call naming depth) cursor = .ok found after)
    (ends : AtArgumentEnd after)
    (gapless : callHasGap found = false) : IsCanonical naming (.nested found) := by
  obtain ⟨written, middle, read, raw, named, called, rfl⟩ := nestedCall_cases run
  have within : middle.rest <:+ cursor.rest := (goesForward_writtenName.crosses named).suffix
  rw [callHasGap_eq] at gapless
  have isCall := calls (unescaped.suffix within) called ((callHasGap_eq read).trans gapless)
  refine .nested rfl ?_ isCall.rename
  rcases call_cases called with ⟨bare, rfl, rfl⟩ |
    ⟨round, inner, bound, known, closing, -, -, -, -, rfl⟩
  · obtain ⟨token, back, stands⟩ := ends.exists_token
    have padding : token.kind ≠ .padding := fun pads => by
      refine kind?_of_writtenName named ?_
      rw [kind?, stands, ← pads]
      rfl
    have lineBreak := (unescaped.suffix within).ne_lineBreak (stands ▸ List.mem_cons_self)
    obtain ⟨marked, other⟩ := ends.isMark stands padding lineBreak
    exact isCallName_of_read unescaped opens named stands marked fun round => absurd round other
  · obtain ⟨token, back, stands, kind⟩ := Cursor.exists_cons_of_kind? (beq_iff_eq.mp round)
    exact isCallName_of_read unescaped opens named stands (by rw [kind]; rfl) fun _ => rfl

/-- What is read as the value of an argument is canonical, and keeps the key of a literal. -/
theorem isCanonical_of_value (calls : GivesCanonical naming (call naming depth))
    {found : ArgumentValue}
    (unescaped : AreUnescaped cursor.rest) (firm : cursor.kind? ≠ some .padding)
    (run : value naming (call naming depth) cursor = .ok found after) (ends : AtArgumentEnd after)
    (gapless : found.hasGap = false) :
    IsCanonical naming found ∧
      ∀ text, found = .literal text → opensKey (scan text) = true →
        opensKey cursor.rest = true := by
  rw [value_eq] at run
  split at run
  next quoted =>
    obtain ⟨written, _, taken, finished⟩ := bind_eq_ok.mp run
    cases taken
    cases finished
    refine ⟨?_, fun text same => by cases same⟩
    obtain ⟨token, rest, stands, kind⟩ := Cursor.exists_cons_of_kind? quoted
    have mem : token ∈ cursor.rest := stands ▸ List.mem_cons_self
    rw [text_of_rest stands]
    exact .quoted
      (isQuote_of_isPiece (unescaped.isPiece mem (by simp [kind])) kind
        (unescaped.bare token mem kind))
  next unquoted =>
    split at run
    next opens =>
      obtain ⟨nested, _, called, finished⟩ := bind_eq_ok.mp run
      cases finished
      exact ⟨isCanonical_of_nestedCall calls unescaped opens called ends gapless,
        fun text same => by cases same⟩
    next uncalled =>
      obtain ⟨text, _, taken, finished⟩ := bind_eq_ok.mp run
      cases taken
      cases finished
      obtain ⟨token, back, behind⟩ := ends.exists_token
      obtain ⟨isLiteral, whole⟩ :=
        isLiteral_of_read unescaped firm unquoted (Bool.eq_false_iff.mpr uncalled) behind
      refine ⟨.literal isLiteral, ?_⟩
      rintro text ⟨⟩ keyed
      obtain ⟨more, whole⟩ := whole
      rw [← whole]
      exact opensKey_append keyed more

/-! ## Arguments and calls -/

/-- Behind skipped padding and line breaks there is none. -/
theorem kind?_skipBreaks_ne (cursor : Cursor) :
    cursor.skipBreaks.kind? ≠ some .padding := fun pads =>
  absurd (kind?_skipWhile pads) (by decide)

/-- What is read as an argument behind others can stand there. -/
theorem areCanonical_of_argument (calls : GivesCanonical naming (call naming depth))
    {defaultKey : Text}
    {before others : List (Argument ArgumentValue)} {found : Argument ArgumentValue}
    (unescaped : AreUnescaped cursor.rest) (firm : cursor.kind? ≠ some .padding)
    (run : argument naming (call naming depth) defaultKey before cursor = .ok found after)
    (ends : AtArgumentEnd after) (gapless : argumentsHaveGap [found] = false)
    (later : AreCanonical naming defaultKey (before ++ [found]) others) :
    AreCanonical naming defaultKey before (found :: others) := by
  rcases argument_cases run with ⟨keyed, written, rfl, valued⟩ | ⟨keyless, written, rfl, valued⟩
  · simp only [argumentsHaveGap, Bool.false_and, Bool.false_or, Bool.or_false] at gapless
    have within : cursor.advance.advance.skipBreaks.rest <:+ cursor.rest :=
      ((suffix_skipBreaks _).trans (suffix_advance _)).trans (suffix_advance _)
    have canonical :=
      (isCanonical_of_value calls (unescaped.suffix within)
          (kind?_skipBreaks_ne _) valued ends gapless).1
    refine .keyed ?_ canonical later
    cases stands : cursor.rest with
    | nil =>
        rw [stands] at keyed
        cases keyed
    | cons token rest =>
        rw [stands, opensKey, Bool.and_eq_true, beq_iff_eq] at keyed
        have piece := unescaped.isPiece (stands ▸ List.mem_cons_self) (by simp [keyed.1])
        have sole := isSole_of_isPiece piece (by rw [keyed.1]; rfl)
        rw [keyed.1] at sole
        rwa [text_of_rest stands]
  · simp only [argumentsHaveGap, Bool.true_and, Bool.or_false, Bool.or_eq_false_iff] at gapless
    obtain ⟨canonical, keeps⟩ := isCanonical_of_value calls unescaped firm valued ends gapless.2
    refine .positional ?_ canonical later
    cases written with
    | quoted | nested => rfl
    | literal text =>
        rw [needsKey, Bool.or_eq_false_iff]
        refine ⟨gapless.1, ?_⟩
        cases keyed : opensKey (scan text) with
        | false => rfl
        | true => rw [keeps text rfl keyed] at keyless; cases keyless

/-- What is read as arguments behind others, up to the end of the call, can stand there. -/
theorem areCanonical_of_arguments (calls : GivesCanonical naming (call naming depth))
    {defaultKey : Text} {bound : Nat}
    {before known : List (Argument ArgumentValue)} (unescaped : AreUnescaped cursor.rest)
    (firm : cursor.kind? ≠ some .padding)
    (run : arguments naming (call naming depth) defaultKey bound before cursor = .ok known after)
    (closes : after.kind? = some .roundClose) :
    ∃ others, known = before ++ others ∧
      (argumentsHaveGap others = false → AreCanonical naming defaultKey before others) := by
  induction bound generalizing before cursor with
  | zero =>
      cases run
      exact ⟨[], (List.append_nil _).symm, fun _ => .nil⟩
  | succ bound ih =>
      rcases arguments_cases run with ⟨-, rfl, rfl⟩ | ⟨-, found, middle, read, rest⟩
      · exact ⟨[], (List.append_nil _).symm, fun _ => .nil⟩
      · have within : middle.rest <:+ cursor.rest :=
          ((goesForward_argument (goesForward_call depth) _ _).crosses read).suffix
        rcases rest with ⟨comma, run⟩ | ⟨-, rfl, rfl⟩
        · have back : middle.skipBreaks.advance.skipBreaks.rest <:+ cursor.rest :=
            (((suffix_skipBreaks _).trans (suffix_advance _)).trans (suffix_skipBreaks _)).trans
              within
          obtain ⟨others, rfl, canonical⟩ := ih (unescaped.suffix back) (kind?_skipBreaks_ne _) run
          refine ⟨found :: others, by rw [List.append_assoc]; rfl, fun gapless => ?_⟩
          obtain ⟨here, later⟩ := argumentsHaveGap_cons.mp gapless
          exact areCanonical_of_argument calls unescaped firm read
            (Or.inl (beq_iff_eq.mp comma)) here (canonical later)
        · exact ⟨[found], rfl, fun gapless =>
            areCanonical_of_argument calls unescaped firm read (Or.inr closes) gapless .nil⟩

theorem givesCanonical_call (depth : Nat) : GivesCanonical naming (call naming depth) := by
  induction depth with
  | zero =>
      intro name cursor after found _ run
      cases run
  | succ depth ih =>
      intro name cursor after found unescaped run gapless
      rcases call_cases run with ⟨-, rfl, -⟩ |
        ⟨-, inner, bound, known, closing, same, read, closes, -, rfl⟩
      · exact .bare
      · cases same
        have within : cursor.advance.skipBreaks.rest <:+ cursor.rest :=
          (suffix_skipBreaks _).trans (suffix_advance _)
        obtain ⟨others, rfl, canonical⟩ :=
          areCanonical_of_arguments ih (unescaped.suffix within) (kind?_skipBreaks_ne _) read closes
        exact .parenthesised (canonical gapless)

end Grammar

/-! ## Payloads -/

theorem exists_run_of_payload {naming : Naming} {name payload : Text} {call : Annotation}
    (read : ofPayload naming name payload = .ok (some call)) :
    ∃ after, Grammar.payloadCall naming name payload (Cursor.ofTokens (scan payload)) =
      .ok (some call) after := by
  rw [ofPayload, Read.valueAt] at read
  split at read
  next result after run =>
    cases read
    exact ⟨after, run⟩
  next => cases read

/-- What is read from a payload without escapes is canonical, unless it has a gap. -/
theorem isPayload_of_read {naming : Naming} {name payload : Text} {call : Annotation}
    (unescaped : AreUnescaped (scan payload))
    (read : ofPayload naming name payload = .ok (some call))
    (gapless : ArgumentValue.callHasGap call = false) : IsPayload naming name call := by
  obtain ⟨after, run⟩ := exists_run_of_payload read
  have within : (Cursor.ofTokens (scan payload)).skipBreaks.rest <:+ scan payload :=
    (Cursor.suffix_skipBreaks _).trans (List.dropWhile_suffix _)
  have unescaped := unescaped.suffix within
  rcases Grammar.payloadCall_cases run with ⟨-, rfl, -⟩ |
    ⟨written, start, found, starts, called, rfl⟩
  · exact ⟨.bare, fun _ written => by cases written⟩
  · have within : ArgumentValue.callHasGap found = false := by
      rw [ArgumentValue.callHasGap_eq] at gapless ⊢
      exact gapless
    cases starts with
    | unnamed opens =>
      exact ⟨(Grammar.givesCanonical_call _ unescaped called within).rename, by simp⟩
    | named named opens =>
        obtain ⟨token, rest, stands, kind⟩ := Cursor.exists_cons_of_kind? named
        have behind := Cursor.rest_step stands
        have back : AreUnescaped (Cursor.ofTokens (scan payload)).skipBreaks.step.rest := by
          rw [behind]
          exact unescaped.suffix (stands ▸ List.suffix_cons token rest)
        refine ⟨(Grammar.givesCanonical_call _ back called within).rename, ?_⟩
        rintro text ⟨⟩
        have sole :=
          isSole_of_isPiece (unescaped.isPiece (stands ▸ List.mem_cons_self) (by simp [kind]))
            (by rw [kind]; rfl)
        rw [kind, ← Cursor.text_of_rest stands] at sole
        refine ⟨sole, ?_⟩
        rcases Grammar.call_cases called with ⟨bare, -, -⟩ | ⟨-, _, _, _, _, -, -, -, -, rfl⟩
        · rw [Cursor.isAt, Cursor.kind?_step, opens] at bare
          cases bare
        · rfl

end Annotation

end DocComment
