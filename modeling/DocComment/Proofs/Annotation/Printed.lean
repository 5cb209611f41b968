import DocComment.Proofs.Annotation.Found
import DocComment.Proofs.Annotation.Inverse

/-!
# Annotations and their written form

An annotation that was read from a payload without escapes is read back from its written form,
but for the texts that it and the calls in it were read from (`Annotation.ofPayload_render`).
Reading undoes escapes that writing does not always redo: a quoted value between parentheses
is read back if and only if its quote can hold it (`Annotation.ofPayload_quoted_iff`).
-/

namespace DocComment

open Token Cursor

/-! ## Quotes -/

section Quotes

variable {quote : Char}

/-- A closed quote is one token. -/
theorem Token.scan_quote (mark : quote = '"' ∨ quote = '\'') {rest : Text} {length : Nat}
    (closed : quotedLength quote rest = (true, length)) :
    scan (quote :: rest) = ⟨.quoted, quote :: rest.take length⟩ :: scan (rest.drop length) := by
  rw [scan_cons, piece_quote mark, closed]
  exact prepend_of_known (by simp) _

/-- A text that begins with a quote begins with a closed one. -/
theorem Token.exists_closed (mark : quote = '"' ∨ quote = '\'') {rest : Text}
    (first : firstKind? (quote :: rest) = some .quoted) :
    ∃ length, quotedLength quote rest = (true, length) := by
  rw [firstKind?_cons, piece_quote mark] at first
  refine ⟨(quotedLength quote rest).2, Prod.ext ?_ rfl⟩
  simpa using first

/-- Between double quotes stands every value on one line. -/
theorem ArgumentValue.isQuote_double {value : Text} (unbroken : '\n' ∉ value) :
    IsQuote value '"' where
  sole := by
    rw [Text.Quoted.encode_double]
    refine isSole_of_cut (.quoted (.inl rfl) ?_) (by simp)
    rw [Text.Quoted.quotedLength_escaped unbroken, List.length_append, List.length_singleton]
  decoded := Text.Quoted.decode_encode_double value

theorem ArgumentValue.isQuote_single {value : Text} (bare : Text.Quoted.IsBare value) :
    IsQuote value '\'' where
  sole := by
    rw [Text.Quoted.encode_single]
    refine isSole_of_cut (.quoted (.inr rfl) ?_) (by simp)
    rw [bare.closed, List.length_append, List.length_singleton]
  decoded := Text.Quoted.decode_encode_single_iff.mpr bare.plain

end Quotes

namespace Annotation

namespace Grammar

variable {naming : Naming} {call : Text → Read Annotation} {cursor after : Cursor} {content : Text}
  {quote : Char}

theorem value_quoted_cases (run : value naming call cursor = .ok (.quoted content quote) after) :
    cursor.kind? = some .quoted ∧ Text.Quoted.decode cursor.text = content := by
  rw [value_eq] at run
  split at run
  next kind =>
    obtain ⟨written, middle, taken, run⟩ := Read.bind_eq_ok.mp run
    cases taken
    cases run
    exact ⟨kind, rfl⟩
  next =>
    split at run
    next =>
      obtain ⟨found, middle, -, run⟩ := Read.bind_eq_ok.mp run
      cases run
    next =>
      obtain ⟨found, middle, -, run⟩ := Read.bind_eq_ok.mp run
      cases run

/-- Arguments are read behind the given ones. -/
theorem prefix_of_arguments {defaultKey : Text} {bound : Nat}
    {before known : List (Argument ArgumentValue)}
    (run : arguments naming call defaultKey bound before cursor = .ok known after) :
    before <+: known := by
  induction bound generalizing before cursor with
  | zero =>
      cases run
      exact List.prefix_rfl
  | succ bound ih =>
      rcases arguments_cases run with ⟨-, rfl, -⟩ | ⟨-, found, middle, -, ⟨-, run⟩ | ⟨-, rfl, -⟩⟩
      · exact List.prefix_rfl
      · exact (List.prefix_append _ _).trans (ih run)
      · exact List.prefix_append _ _

/-- The first of the arguments that are read comes first. -/
theorem argument_of_arguments {defaultKey : Text} {bound : Nat} {first : Argument ArgumentValue}
    {others : List (Argument ArgumentValue)}
    (run : arguments naming call defaultKey bound [] cursor = .ok (first :: others) after) :
    ∃ middle, argument naming call defaultKey [] cursor = .ok first middle := by
  cases bound with
  | zero => cases run
  | succ bound =>
      rcases arguments_cases run with ⟨-, none, -⟩ |
        ⟨-, found, middle, read, ⟨-, run⟩ | ⟨-, known, -⟩⟩
      · cases none
      · obtain ⟨rest, same⟩ := prefix_of_arguments run
        cases same
        exact ⟨middle, read⟩
      · cases known
        exact ⟨middle, read⟩

/-- What begins with a quotation mark begins with no break. -/
theorem isFirm_quote (mark : quote = '"' ∨ quote = '\'') (rest : Text) :
    IsFirm (quote :: rest) := by
  have first := firstKind?_cons quote rest
  rw [piece_quote mark] at first
  dsimp only at first
  split at first
  next => exact isFirm_of_firstKind? first (by decide) (by decide)
  next => exact isFirm_of_firstKind? first (by decide) (by decide)

theorem exists_render_quoted (mark : quote = '"' ∨ quote = '\'') (content rest : Text) :
    ∃ tail, (ArgumentValue.quoted content quote).render ++ rest = quote :: tail := by
  rw [ArgumentValue.render]
  rcases mark with rfl | rfl
  · exact ⟨_, by rw [Text.Quoted.encode_double]; rfl⟩
  · exact ⟨_, by rw [Text.Quoted.encode_single]; rfl⟩

/-- A quoted value that is read from its written form fits between its marks. -/
theorem fits_of_value (mark : quote = '"' ∨ quote = '\'')
    (stands : cursor.rest = scan ((ArgumentValue.quoted content quote).render ++ [')']))
    (run : value naming call cursor = .ok (.quoted content quote) after) :
    quote = '"' ∧ '\n' ∉ content ∨ quote = '\'' ∧ Text.Quoted.IsBare content := by
  obtain ⟨kind, decoded⟩ := value_quoted_cases run
  have first := kind
  rw [kind?_of_rest stands, ArgumentValue.render] at first
  rcases mark with rfl | rfl
  · refine .inl ⟨rfl, fun broken => ?_⟩
    rw [Text.Quoted.encode_double, List.cons_append, List.append_assoc] at first
    obtain ⟨length, closed⟩ := exists_closed (.inl rfl) first
    have unclosed := Text.Quoted.not_closed_of_broken broken (['"'] ++ [')'])
    rw [closed] at unclosed
    cases unclosed
  · refine .inr ⟨rfl, ?_⟩
    rw [ArgumentValue.render] at stands
    rw [Text.Quoted.encode_single, List.cons_append, List.append_assoc] at first stands
    obtain ⟨length, closed⟩ := exists_closed (.inr rfl) first
    rw [scan_quote (.inr rfl) closed] at stands
    rw [text_of_rest stands] at decoded
    exact Text.Quoted.isBare_of_closed (by decide) closed decoded

end Grammar

/-! ## Annotations -/

variable {naming : Naming} {name payload : Text}

/--
Annotations read back from their written form, but for the texts that calls were read from, if
the payload is on one line, has no blanks but padding and no escapes, and no argument is empty.
-/
theorem ofPayload_render {call : Annotation} (blanks : ∀ c ∈ payload, isBlank c = true → isPadding c = true)
    (plain : ∀ token ∈ scan payload, token.kind = .quoted → '\\' ∉ token.text)
    (read : ofPayload naming name payload = .ok (some call)) (gapless : ArgumentValue.callHasGap call = false) :
    ∃ again, ofPayload naming name call.render = .ok (some again) ∧
      ArgumentValue.callWithoutRaw again = ArgumentValue.callWithoutRaw call :=
  ofPayload_of_isPayload (isPayload_of_read (.of_scan blanks plain) read gapless)

/-- A key, a nested call with its own arguments, a collection and a call without
any are read back. -/
theorem ofPayload_render_nested :
    ∃ call again, ofPayload .plain "X".toList "(x=\"y\",\t@F\\G( 1 ,'z') , [a, b] , Q() )".toList = .ok (some call) ∧
      ofPayload .plain "X".toList call.render = .ok (some again) ∧
      ArgumentValue.callWithoutRaw again = ArgumentValue.callWithoutRaw call := by
  have blanks : "(x=\"y\",\t@F\\G( 1 ,'z') , [a, b] , Q() )".toList.all (fun c => !isBlank c || isPadding c) = true := by
    decide +kernel
  obtain ⟨call, read, gapless⟩ :
      ∃ call, ofPayload .plain "X".toList "(x=\"y\",\t@F\\G( 1 ,'z') , [a, b] , Q() )".toList = .ok (some call) ∧
        ArgumentValue.callHasGap call = false := ⟨_, rfl, rfl⟩
  obtain ⟨again, back, same⟩ := ofPayload_render
    (fun c mem blank => by simpa [blank] using List.all_eq_true.mp blanks c mem) (by decide +kernel) read gapless
  exact ⟨call, again, read, back, same⟩

/-- The call with a quoted value for its only argument. -/
def quoting (naming : Naming) (name content : Text) (quote : Char) : Annotation :=
  let call := naming.callOf name
  { call with arguments := [⟨call.defaultKey, .quoted content quote, true⟩], parenthesised := true }

theorem isPayload_quoting {content : Text} {quote : Char}
    (isQuote : ArgumentValue.IsQuote content quote) :
    IsPayload naming name (quoting naming name content quote) where
  isCall := .parenthesised (.positional rfl (.quoted isQuote) .nil)
  named _ written := by cases written

/-- Quoted values hold no texts that calls were read from. -/
theorem eq_of_argumentsWithoutRaw {arguments : List (Argument ArgumentValue)} {key content : Text}
    {quote : Char} {positional : Bool}
    (same : ArgumentValue.argumentsWithoutRaw arguments =
      [⟨key, .quoted content quote, positional⟩]) :
    arguments = [⟨key, .quoted content quote, positional⟩] := by
  rcases arguments with _ | ⟨⟨_, found, _⟩, _ | ⟨⟨_, _, _⟩, _⟩⟩
  · cases same
  · cases found <;> simp_all [ArgumentValue.argumentsWithoutRaw, ArgumentValue.withoutRaw]
  · simp [ArgumentValue.argumentsWithoutRaw] at same

/--
A quoted value that is written between parentheses is read back, as the only argument of the call,
just when its quote can hold it: between double quotes it has no line feed, and between
single quotes neither a mark nor a backslash of its own ends the quote elsewhere.
-/
theorem ofPayload_quoted_iff {content : Text} {quote : Char} (mark : quote = '"' ∨ quote = '\'') :
    (∃ call key, ofPayload naming name ('(' :: ((ArgumentValue.quoted content quote).render ++ [')'])) = .ok (some call) ∧
        call.arguments = [⟨key, .quoted content quote, true⟩]) ↔
      quote = '"' ∧ '\n' ∉ content ∨ quote = '\'' ∧ Text.Quoted.IsBare content := by
  constructor
  · rintro ⟨call, key, read, only⟩
    have cut := @scan_mark '(' .roundOpen rfl ((ArgumentValue.quoted content quote).render ++ [')'])
    have first := @Grammar.firstKind?_mark '(' .roundOpen rfl ((ArgumentValue.quoted content quote).render ++ [')'])
    have stands := rest_start (Grammar.isFirm_of_firstKind? first (by decide) (by decide))
    obtain ⟨after, run⟩ := exists_run_of_payload read
    rcases Grammar.payloadCall_cases run with ⟨-, rfl, -⟩ | ⟨written, start, found, starts, called, rfl⟩
    · cases only
    cases starts with
    | named kind => rw [kind?_of_rest stands, first] at kind; cases kind
    | unnamed =>
        rcases Grammar.call_cases called with ⟨-, rfl, -⟩ | ⟨-, inner, bound, known, closing, -, gathered, -, -, rfl⟩
        · cases only
        cases only
        obtain ⟨tail, begins⟩ := Grammar.exists_render_quoted mark content [')']
        have firm := Grammar.isFirm_quote mark tail
        rw [← begins] at firm
        have reaches := reaches_advance (stands.trans cut) (by simp)
        have inside := firm.skipBreaks (reaches.rest_eq (dropWhile_of_firstKind? firm.padding))
        obtain ⟨middle, taken⟩ := Grammar.argument_of_arguments gathered
        rcases Grammar.argument_cases taken with ⟨-, written, found, -⟩ | ⟨-, written, found, run⟩
        · cases found
        · cases found
          exact Grammar.fits_of_value mark inside run
  · intro fits
    have isQuote : ArgumentValue.IsQuote content quote := by
      rcases fits with ⟨rfl, unbroken⟩ | ⟨rfl, bare⟩
      · exact ArgumentValue.isQuote_double unbroken
      · exact ArgumentValue.isQuote_single bare
    obtain ⟨call, read, same⟩ := ofPayload_of_isPayload (@isPayload_quoting naming name _ _ isQuote)
    rw [ArgumentValue.callWithoutRaw_eq, ArgumentValue.callWithoutRaw_eq] at same
    exact ⟨call, _, read, eq_of_argumentsWithoutRaw (congrArg Call.arguments same)⟩

/-- Between double quotes the marks of the value are escaped. -/
theorem ofPayload_quoted_marks :
    ∃ call key, ofPayload .plain "X".toList ('(' :: ((ArgumentValue.quoted "a\"\\b".toList '"').render ++ [')'])) =
        .ok (some call) ∧
      call.arguments = [⟨key, .quoted "a\"\\b".toList '"', true⟩] :=
  (ofPayload_quoted_iff (.inl rfl)).mpr (.inl ⟨rfl, by decide⟩)

/-- A line feed is not escaped, and a quote with one in it cannot be read. -/
theorem not_ofPayload_quoted_feed :
    ¬ ∃ call key, ofPayload .plain "X".toList ('(' :: ((ArgumentValue.quoted "a\nb".toList '"').render ++ [')'])) =
        .ok (some call) ∧
      call.arguments = [⟨key, .quoted "a\nb".toList '"', true⟩] := by
  rintro ⟨call, key, read, -⟩
  cases read

end Annotation

end DocComment
