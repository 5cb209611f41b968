import DocComment.Proofs.Annotation.Written

/-!
# Reading written annotations

A canonical value is read back from its written form in front of the mark that ends its
argument (`readsBack_of_isCanonical`).  The induction follows the rules for values, calls and
arguments; only the texts that calls were read from may differ (`withoutRaw`).
-/

namespace DocComment

open Token

namespace Annotation

open Read Cursor ArgumentValue

namespace Grammar

variable {naming : Naming} {text rest : Text} {cursor : Cursor}

/-- The keys of positional arguments depend on no text that a call was read from. -/
theorem positionalKey_withoutRaw (defaultKey : Text) (before : List (Argument ArgumentValue)) :
    positionalKey defaultKey (argumentsWithoutRaw before) = positionalKey defaultKey before := by
  have same : (argumentsWithoutRaw before).length = before.length ∧
      (argumentsWithoutRaw before).any Argument.positional = before.any Argument.positional := by
    induction before with
    | nil => exact ⟨rfl, rfl⟩
    | cons argument before ih =>
        obtain ⟨key, value, positional⟩ := argument
        simp [argumentsWithoutRaw, ih]
  rw [positionalKey, positionalKey, same.1, same.2]

/-! ## Single arguments -/

/-- The written form of an argument. -/
def renderArgument (argument : Argument ArgumentValue) : Text :=
  if argument.positional then argument.value.render else argument.key ++ '=' :: argument.value.render

theorem renderArguments_cons (argument : Argument ArgumentValue)
    (others : List (Argument ArgumentValue)) :
    renderArguments (argument :: others) = renderArgument argument :: renderArguments others := by
  obtain ⟨key, value, positional⟩ := argument
  rw [renderArguments, renderArgument]

/-- The text begins with an argument, and not with the end of its call. -/
structure OpensArgument (text : Text) : Prop extends IsFirm text where
  proper : firstKind? text ≠ none
  inside : firstKind? text ≠ some .roundClose

theorem OpensArgument.goesOn (opens : OpensArgument text) (stands : cursor.rest = scan text) :
    (cursor.isAt .roundClose || cursor.isAtEnd) = false := by
  have inside := opens.inside
  have proper := opens.proper
  rw [← kind?_of_rest stands] at inside proper
  rw [Bool.or_eq_false_iff, isAt, beq_eq_false_iff_ne]
  refine ⟨inside, ?_⟩
  cases ended : cursor.isAtEnd with
  | false => rfl
  | true =>
      rw [kind?, List.isEmpty_iff.mp ended] at proper
      exact absurd rfl proper

theorem opensArgument_of_firstKind? {kind : Kind} (first : firstKind? text = some kind)
    (padding : kind ≠ .padding)
    (lineBreak : kind ≠ .lineBreak) (inside : kind ≠ .roundClose) : OpensArgument text where
  toIsFirm := isFirm_of_firstKind? first padding lineBreak
  proper := by simp [first]
  inside same := inside (Option.some.inj (first.symm.trans same))

/-- The first token of a literal is that of its text, unless the text is empty. -/
theorem firstKind?_literal (isLiteral : IsLiteral text) (proper : text ≠ [])
    (ends : EndsArgument rest) :
    ∃ kind, firstKind? (text ++ rest) = some kind ∧ firstKind? text = some kind := by
  rw [firstKind?, firstKind?, ends.scan_append isLiteral.quoteless]
  cases found : scan text with
  | nil =>
      have whole := textOf_scan text
      rw [found] at whole
      exact absurd whole.symm proper
  | cons token tokens => exact ⟨token.kind, rfl, rfl⟩

theorem opensArgument_literal (isLiteral : IsLiteral text) (proper : text ≠ [])
    (ends : EndsArgument rest) :
    OpensArgument (text ++ rest) := by
  obtain ⟨kind, first, own⟩ := firstKind?_literal isLiteral proper ends
  obtain ⟨c, more, rfl⟩ := List.exists_cons_of_ne_nil proper
  obtain ⟨token, head, known⟩ := Option.map_eq_some_iff.mp own
  obtain ⟨tokens, found⟩ := List.head?_eq_some_iff.mp head
  refine opensArgument_of_firstKind? first ?_ ?_ ?_
  · rintro rfl
    rw [firstKind?_cons, Option.some.injEq] at own
    have black : isBlank c = false := Text.head?_trim (congrArg List.head? isLiteral.trimmed)
    rw [isBlank_of_isPadding (isPadding_of_piece own)] at black
    cases black
  · rintro rfl
    exact ne_lineBreak_of_mem_scan isLiteral.unbroken (found ▸ List.mem_cons_self) known
  · rintro rfl
    have closed := isLiteral.closed
    rw [found, depthBehindAll?, List.foldlM_cons, known] at closed
    cases closed

theorem isFirm_render {written : ArgumentValue} (canonical : IsCanonical naming written)
    (ends : EndsArgument rest) :
    IsFirm (written.render ++ rest) := by
  cases canonical with
  | quoted isQuote =>
      have starts := (startsWith_of_isSole isQuote.sole rfl).kind? rest
      exact isFirm_of_firstKind? starts (by decide) (by decide)
  | @literal text isLiteral =>
      by_cases proper : text = []
      · subst proper
        exact ends.isFirm
      · exact (opensArgument_literal isLiteral proper ends).toIsFirm
  | nested named isName isCall =>
      obtain ⟨first, others, found, known, -⟩ := (behindName_of_isCall isCall ends).announces isName
      rw [render_nested named, List.append_assoc]
      refine isFirm_of_firstKind? (by rw [firstKind?, found]; rfl) ?_ ?_
      · rcases known with tag | name <;> simp [*]
      · rcases known with tag | name <;> simp [*]

theorem opensArgument_positional {written : ArgumentValue} (canonical : IsCanonical naming written)
    (keyless : written.needsKey = false) (ends : EndsArgument rest) :
    OpensArgument (written.render ++ rest) ∧ opensKey (scan (written.render ++ rest)) = false := by
  cases canonical with
  | quoted isQuote =>
      have starts := (startsWith_of_isSole isQuote.sole rfl).kind? rest
      refine ⟨opensArgument_of_firstKind? starts (by decide) (by decide) (by decide), ?_⟩
      rw [render, scan_append_of_isSole isQuote.sole rfl ends.endsWord]
      rfl
  | @literal text isLiteral =>
      simp only [needsKey, Bool.or_eq_false_iff, List.isEmpty_eq_false_iff] at keyless
      obtain ⟨token, tokens, marked, closes⟩ := ends.exists_scan
      refine ⟨opensArgument_literal isLiteral keyless.1 ends, ?_⟩
      rw [render, ends.scan_append isLiteral.quoteless, marked, opensKey_append_ends closes]
      exact keyless.2
  | nested named isName isCall =>
      obtain ⟨first, others, found, known, -, unkeyed⟩ :=
        (behindName_of_isCall isCall ends).announces isName
      rw [render_nested named, List.append_assoc]
      refine ⟨opensArgument_of_firstKind?
        (by rw [firstKind?, found]; rfl) ?_ ?_ ?_, by rw [found]; exact unkeyed⟩
      · rcases known with tag | name <;> simp [*]
      · rcases known with tag | name <;> simp [*]
      · rcases known with tag | name <;> simp [*]

/-- Behind arguments like the given ones the argument is read back, but for raw texts. -/
def ArgumentReadsBack (naming : Naming) (defaultKey : Text) (before : List (Argument ArgumentValue))
    (written : Argument ArgumentValue) : Prop :=
  ∀ {before' : List (Argument ArgumentValue)} {rest : Text} {cursor : Cursor} {depth : Nat},
    argumentsWithoutRaw before' = argumentsWithoutRaw before → EndsArgument rest →
    cursor.rest = scan (renderArgument written ++ rest) → cursor.rest.length ≤ depth →
    ∃ found after, argument naming (call naming depth) defaultKey before' cursor = .ok found after ∧
      argumentsWithoutRaw [found] = argumentsWithoutRaw [written] ∧ after.rest = scan rest

theorem readsBack_keyed {defaultKey key : Text} {written : ArgumentValue}
    {before : List (Argument ArgumentValue)}
    (sole : isSole .name key = true) (canonical : IsCanonical naming written)
    (back : ReadsBack naming written) :
    ArgumentReadsBack naming defaultKey before ⟨key, written, false⟩ := by
  intro before' rest cursor depth _ ends stands within
  have firm := isFirm_render canonical ends
  have cut : scan ('=' :: (written.render ++ rest)) =
    ⟨.equals, ['=']⟩ :: scan (written.render ++ rest) := scan_mark rfl _
  have stands : cursor.rest = ⟨.name, key⟩ :: scan ('=' :: (written.render ++ rest)) := by
    rw [stands, renderArgument, if_neg Bool.false_ne_true, List.append_assoc]
    exact scan_append_of_isSole sole rfl (endsWord_of_mark rfl _)
  have keyed : (cursor.isAt .name && cursor.advance.isAt .equals) = true := by
    rw [isAt_and_isAt_eq, stands, cut]
    rfl
  have behindKey := reaches_advance stands (by simp)
  have behindEquals : cursor.advance.advance.rest = scan (written.render ++ rest) :=
    (reaches_advance (behindKey.rest.trans cut) (by simp)).rest_eq
      (dropWhile_of_firstKind? firm.padding)
  have valued := firm.skipBreaks behindEquals
  have short : cursor.advance.advance.skipBreaks.rest.length ≤ depth := by
    have length := congrArg List.length stands
    rw [cut, List.length_cons, List.length_cons] at length
    rw [valued]
    omega
  obtain ⟨found, after, run, same, reached⟩ := back ends valued short
  refine ⟨⟨key, found, false⟩, after, ?_, ?_, reached⟩
  · unfold argument
    rw [run_get_bind, keyed, if_pos rfl, run_bind_of_ok (run_takeText stands),
      run_bind_of_ok (run_expect (behindKey.rest.trans cut) rfl), run_bind_of_ok (run_move _ _),
      run_bind_of_ok run]
    rfl
  · rw [argumentsWithoutRaw, argumentsWithoutRaw, argumentsWithoutRaw, argumentsWithoutRaw, same]

theorem readsBack_positional {defaultKey : Text} {written : ArgumentValue}
    {before : List (Argument ArgumentValue)}
    (keyless : written.needsKey = false) (canonical : IsCanonical naming written)
    (back : ReadsBack naming written) :
    ArgumentReadsBack naming defaultKey before
      ⟨positionalKey defaultKey before, written, true⟩ := by
  intro before' rest cursor depth alike ends stands within
  obtain ⟨found, after, run, same, reached⟩ := back ends stands within
  have keyless : (cursor.isAt .name && cursor.advance.isAt .equals) = false := by
    rw [isAt_and_isAt_eq, stands]
    exact (opensArgument_positional canonical keyless ends).2
  have key : positionalKey defaultKey before' = positionalKey defaultKey before := by
    rw [← positionalKey_withoutRaw, alike, positionalKey_withoutRaw]
  refine ⟨⟨positionalKey defaultKey before, found, true⟩, after, ?_, ?_, reached⟩
  · unfold argument
    rw [run_get_bind, keyless, if_neg Bool.false_ne_true, run_bind_of_ok run, key]
    rfl
  · rw [argumentsWithoutRaw, argumentsWithoutRaw, argumentsWithoutRaw, argumentsWithoutRaw, same]

/-! ## Lists of arguments -/

/-- Behind arguments like the given ones the others are read back up to the end of the call. -/
def ArgumentsReadBack (naming : Naming) (defaultKey : Text) (before others : List (Argument ArgumentValue)) : Prop :=
  ∀ {before' : List (Argument ArgumentValue)} {rest : Text} {cursor : Cursor} {depth bound : Nat},
    argumentsWithoutRaw before' = argumentsWithoutRaw before →
    cursor.rest = scan (Text.join [',', ' '] (renderArguments others) ++ ')' :: rest) →
    cursor.rest.length ≤ depth → cursor.rest.length < bound →
    ∃ found after, arguments naming (call naming depth) defaultKey bound before' cursor = .ok found after ∧
      argumentsWithoutRaw found = argumentsWithoutRaw (before ++ others) ∧ after.rest = scan (')' :: rest)

/-- Behind the first argument of a call stands its end, or a comma and the other arguments. -/
theorem exists_join (argument : Argument ArgumentValue) (others : List (Argument ArgumentValue))
    (rest : Text) :
    ∃ tail, Text.join [',', ' '] (renderArguments (argument :: others)) ++ ')' :: rest =
      renderArgument argument ++ tail ∧
      (others = [] ∧ tail = ')' :: rest ∨
        tail = ',' :: ' ' :: (Text.join [',', ' '] (renderArguments others) ++ ')' :: rest)) := by
  rw [renderArguments_cons]
  cases others with
  | nil => exact ⟨')' :: rest, rfl, Or.inl ⟨rfl, rfl⟩⟩
  | cons second others =>
      rw [renderArguments_cons, Text.join_cons_cons, List.append_assoc, List.append_assoc]
      exact ⟨_, rfl, Or.inr rfl⟩

theorem endsArgument_of_join {others : List (Argument ArgumentValue)} {tail more : Text}
    (split : others = [] ∧ tail = ')' :: rest ∨ tail = ',' :: ' ' :: more) : EndsArgument tail := by
  rcases split with ⟨-, rfl⟩ | rfl
  · exact ⟨')', rest, rfl, Or.inr rfl⟩
  · exact ⟨',', _, rfl, Or.inl rfl⟩

theorem argumentsReadBack_nil {defaultKey : Text} {before : List (Argument ArgumentValue)} :
    ArgumentsReadBack naming defaultKey before [] := by
  intro before' rest cursor depth bound alike stands _ enough
  refine ⟨before', cursor, ?_, ?_, stands⟩
  · cases bound with
    | zero => cases enough
    | succ bound =>
        have here : cursor.isAt .roundClose = true := by
          rw [isAt, kind?_of_scan stands]
          rfl
        unfold arguments
        rw [run_get_bind, here, Bool.true_or, if_pos rfl]
        rfl
  · rw [List.append_nil, alike]

theorem argumentsReadBack_cons {defaultKey : Text} {argument : Argument ArgumentValue}
    {before others : List (Argument ArgumentValue)}
    (back : ArgumentReadsBack naming defaultKey before argument)
    (opens : ∀ {rest}, EndsArgument rest → OpensArgument (renderArgument argument ++ rest))
    (firm : ∀ {rest}, IsFirm (Text.join [',', ' '] (renderArguments others) ++ ')' :: rest))
    (later : ArgumentsReadBack naming defaultKey (before ++ [argument]) others) :
    ArgumentsReadBack naming defaultKey before (argument :: others) := by
  intro before' rest cursor depth bound alike stands within enough
  obtain ⟨tail, whole, split⟩ := exists_join argument others rest
  have ends := endsArgument_of_join split
  rw [whole] at stands
  obtain ⟨found, middle, run, same, reached⟩ := back alike ends stands within
  have behind := ends.isFirm.skipBreaks reached
  have short := (goesForward_argument (goesForward_call depth) _ _).length_le run
  have known : argumentsWithoutRaw (before' ++ [found]) =
      argumentsWithoutRaw (before ++ [argument]) := by
    rw [argumentsWithoutRaw_append, argumentsWithoutRaw_append, alike, same]
  cases bound with
  | zero => cases enough
  | succ bound =>
      rw [run_arguments_succ ((opens ends).goesOn stands) run]
      rcases split with ⟨rfl, rfl⟩ | rfl
      · have apart : middle.skipBreaks.isAt .comma = false := by
          rw [isAt, kind?_of_rest behind, firstKind?_mark rfl]
          rfl
        rw [apart, if_neg Bool.false_ne_true]
        exact ⟨_, _, rfl, known, behind⟩
      · have cut := behind.trans (@scan_mark ',' .comma rfl _)
        have here : middle.skipBreaks.isAt .comma = true := by
          rw [isAt_of_rest cut]
          rfl
        have reaches := reaches_advance cut (by simp)
        have shorter := reaches.shorter
        have next := firm.skipBreaks (reaches.rest_eq
          ((List.dropWhile_cons_of_pos rfl).trans (dropWhile_of_firstKind? firm.padding)))
        rw [behind, ← reached] at shorter
        have fewer : middle.skipBreaks.advance.skipBreaks.rest.length < cursor.rest.length := by
          have skipped :=
            (List.dropWhile_sublist
                (fun token : Token => token.kind == .padding || token.kind == .lineBreak)
            (l := middle.skipBreaks.advance.rest)).length_le
          exact Nat.lt_of_le_of_lt skipped (Nat.lt_of_lt_of_le shorter short)
        obtain ⟨others', after, ran, same, reached⟩ :=
          @later _ _ _ depth bound known next (by omega) (by omega)
        rw [here, if_pos rfl]
        exact ⟨others', after, ran, same.trans (by rw [List.append_assoc]; rfl), reached⟩

theorem callReadsBack_bare {name raw : Text} {written : Option Text} :
    CallReadsBack naming name { naming.callOf name with writtenName := written, raw } := by
  intro rest cursor depth ends stands within
  have ends := ends rfl
  have stands' : cursor.rest = scan rest := stands
  have apart : cursor.isAt .roundOpen = false := by
    obtain ⟨c, kind, more, rfl, marks, known⟩ := ends.exists_mark
    rw [isAt, kind?_of_rest stands', firstKind?_mark marks]
    rcases known with rfl | rfl <;> rfl
  refine ⟨naming.callOf name, cursor, ?_, ?_, stands'.trans (congrArg scan ends.dropWhile.symm)⟩
  · cases depth with
    | zero => cases within
    | succ depth =>
        unfold call
        rw [run_get_bind, apart, if_neg Bool.false_ne_true]
        rfl
  · rw [callWithoutRaw_eq, callWithoutRaw_eq]

theorem callReadsBack_parenthesised {name raw : Text} {written : Option Text}
    {arguments : List (Argument ArgumentValue)}
    (firm : ∀ {rest}, IsFirm (Text.join [',', ' '] (renderArguments arguments) ++ ')' :: rest))
    (back : ArgumentsReadBack naming (naming.callOf name).defaultKey [] arguments) :
    CallReadsBack naming name { naming.callOf name with writtenName := written, raw, arguments, parenthesised := true } := by
  intro rest cursor depth _ stands within
  have shape :
      renderBehindName
      { naming.callOf name with writtenName := written, raw, arguments, parenthesised := true }
      ++ rest = '(' :: (Text.join [',', ' '] (renderArguments arguments) ++ ')' :: rest) := by
    simp [renderBehindName, parenthesise]
  rw [shape, @scan_mark '(' .roundOpen rfl] at stands
  have here : cursor.isAt .roundOpen = true := by
    rw [isAt_of_rest stands]
    rfl
  have reaches := reaches_advance stands (by simp)
  have inside := firm.skipBreaks (reaches.rest_eq (dropWhile_of_firstKind? firm.padding))
  have length := congrArg List.length stands
  rw [List.length_cons, ← inside] at length
  cases depth with
  | zero => cases within
  | succ depth =>
      obtain ⟨found, closing, run, same, reached⟩ :=
        @back _ _ _ depth _ rfl inside (by omega) (Nat.lt_succ_self _)
      have close := reached.trans (@scan_mark ')' .roundClose rfl rest)
      refine ⟨{ naming.callOf name with parenthesised := true, arguments := found },
        closing.advance, ?_, ?_,
        (reaches_advance close (by simp)).rest⟩
      · unfold call
        rw [run_get_bind]
        dsimp only
        rw [here, if_pos rfl, run_bind_of_ok (run_advance _), run_bind_of_ok (run_move _ _),
          run_get_bind, run_bind_of_ok run, run_bind_of_ok (run_expect close rfl)]
        rfl
      · rw [callWithoutRaw_eq, callWithoutRaw_eq]
        dsimp only
        rw [same]
        rfl

theorem opensArgument_of_areCanonical {defaultKey : Text} {argument : Argument ArgumentValue}
    {before others : List (Argument ArgumentValue)}
    (canonical : AreCanonical naming defaultKey before (argument :: others))
    (ends : EndsArgument rest) :
    OpensArgument (renderArgument argument ++ rest) := by
  cases canonical with
  | keyed sole canonical later =>
      have starts := (startsWith_of_isSole sole rfl).kind?
      rw [renderArgument, if_neg Bool.false_ne_true, List.append_assoc]
      exact opensArgument_of_firstKind? (starts _) (by decide) (by decide) (by decide)
  | positional keyless canonical later => exact (opensArgument_positional canonical keyless ends).1

theorem isFirm_of_areCanonical {defaultKey : Text} {before others : List (Argument ArgumentValue)}
    (canonical : AreCanonical naming defaultKey before others) {rest : Text} :
    IsFirm (Text.join [',', ' '] (renderArguments others) ++ ')' :: rest) := by
  cases others with
  | nil => exact (EndsArgument.isFirm ⟨')', rest, rfl, Or.inr rfl⟩)
  | cons argument others =>
      obtain ⟨tail, whole, split⟩ := exists_join argument others rest
      rw [whole]
      exact (opensArgument_of_areCanonical canonical (endsArgument_of_join split)).toIsFirm

mutual

/-- A canonical value is read back from its written form. -/
theorem readsBack_of_isCanonical :
    ∀ {written : ArgumentValue}, IsCanonical naming written → ReadsBack naming written
  | _, .quoted isQuote => readsBack_quoted isQuote
  | _, .literal isLiteral => readsBack_literal isLiteral
  | _, .nested named isName isCall =>
    readsBack_nested named isName isCall (callReadsBack_of_isCall isCall)

theorem callReadsBack_of_isCall :
    ∀ {name : Text} {written : Annotation}, IsCall naming name written →
    CallReadsBack naming name written
  | _, _, .bare => callReadsBack_bare
  | _, _, .parenthesised canonical =>
      callReadsBack_parenthesised (isFirm_of_areCanonical canonical)
        (argumentsReadBack_of_areCanonical canonical)

theorem argumentsReadBack_of_areCanonical :
    ∀ {defaultKey : Text} {before others : List (Argument ArgumentValue)},
    AreCanonical naming defaultKey before others → ArgumentsReadBack naming defaultKey before others
  | _, _, _, .nil => argumentsReadBack_nil
  | _, _, _, .keyed sole canonical later =>
      argumentsReadBack_cons (readsBack_keyed sole canonical (readsBack_of_isCanonical canonical))
        (opensArgument_of_areCanonical (.keyed sole canonical later)) (isFirm_of_areCanonical later)
        (argumentsReadBack_of_areCanonical later)
  | _, _, _, .positional keyless canonical later =>
      argumentsReadBack_cons
        (readsBack_positional keyless canonical (readsBack_of_isCanonical canonical))
        (opensArgument_of_areCanonical (.positional keyless canonical later))
          (isFirm_of_areCanonical later)
        (argumentsReadBack_of_areCanonical later)

end

end Grammar

/-! ## Payloads -/

theorem render_eq (call : Annotation) :
    call.render = call.writtenName.getD [] ++ Grammar.renderBehindName call := by
  obtain ⟨_, _, _, _, _, _⟩ := call
  simp [Call.render, renderCall, Grammar.renderBehindName]

/-- Nothing is skipped in front of a firm payload. -/
theorem rest_start {payload : Text} (firm : Grammar.IsFirm payload) :
    (ofTokens (scan payload)).skipBreaks.rest = scan payload := by
  refine firm.skipBreaks ?_
  change (scan payload).dropWhile (fun token => token.kind == .padding) = scan payload
  rw [dropWhile_scan, dropWhile_of_firstKind? firm.padding]

/-- A payload that starts with a canonical call is read as that call. -/
theorem ofPayload_of_start {name payload : Text} {written : Annotation} {start : Cursor}
    (isCall : IsCall naming name written) (parenthesised : written.parenthesised = true)
    (firm : Grammar.IsFirm payload)
    (starts : Grammar.StartsCall (ofTokens (scan payload)).skipBreaks written.writtenName start)
    (stands : start.rest = scan (Grammar.renderBehindName written))
    (within : start.rest.length ≤ (scan payload).length) :
    ∃ found, ofPayload naming name payload = .ok (some found) ∧
      callWithoutRaw found = callWithoutRaw written := by
  rw [← List.append_nil (Grammar.renderBehindName written)] at stands
  have bare (no : written.parenthesised = false) : Grammar.EndsArgument [] := by
    rw [parenthesised] at no
    cases no
  obtain ⟨found, after, run, same, -⟩ :=
    Grammar.callReadsBack_of_isCall isCall bare stands (Nat.lt_succ_of_le within)
  rw [← rest_start firm] at run
  refine ⟨{ found with writtenName := written.writtenName, raw := Text.trim payload }, ?_, ?_⟩
  · rw [ofPayload, Read.valueAt, Grammar.run_payloadCall starts run]
  · rw [← same, callWithoutRaw_eq, callWithoutRaw_eq]

/-- A canonical annotation is read back from its written form. -/
theorem ofPayload_of_isPayload {name : Text} {written : Annotation}
    (canonical : IsPayload naming name written) :
    ∃ found, ofPayload naming name written.render = .ok (some found) ∧
      callWithoutRaw found = callWithoutRaw written := by
  cases opens : written.parenthesised with
  | false =>
      -- Without parentheses there is no name either, so the payload is empty.
      have unnamed : written.writtenName = none := by
        cases named : written.writtenName with
        | none => rfl
        | some text => rw [(canonical.named text named).2] at opens; cases opens
      have isCall := canonical.isCall
      cases isCall with
      | bare =>
          cases unnamed
          exact ⟨naming.callOf name, rfl, (callWithoutRaw_eq _).trans (callWithoutRaw_eq _).symm⟩
      | parenthesised => cases opens
  | true =>
      obtain ⟨more, behind⟩ : ∃ more, Grammar.renderBehindName written = '(' :: more :=
        ⟨_, by rw [Grammar.renderBehindName, opens]; rfl⟩
      have whole := render_eq written
      cases named : written.writtenName with
      | none =>
          rw [named] at whole
          have firm : Grammar.IsFirm written.render := by
            rw [whole, behind]
            exact Grammar.isFirm_of_firstKind? (Grammar.firstKind?_mark rfl _)
              (by decide) (by decide)
          have stands := rest_start firm
          have starts : (ofTokens (scan written.render)).skipBreaks.kind? = some .roundOpen := by
            rw [kind?_of_rest stands, whole, behind]
            exact Grammar.firstKind?_mark rfl more
          have starts := Grammar.StartsCall.unnamed starts
          rw [← named] at starts
          exact ofPayload_of_start canonical.isCall opens firm starts
            (stands.trans (congrArg scan whole)) (by rw [stands])
      | some text =>
          rw [named, Option.getD_some] at whole
          have cut : scan written.render =
              ⟨.name, text⟩ :: scan (Grammar.renderBehindName written) := by
            rw [whole, behind]
            exact scan_append_of_isSole (canonical.named text named).1 rfl
              (endsWord_of_mark rfl more)
          have first : firstKind? written.render = some .name := by
            rw [firstKind?, cut]
            rfl
          have firm := Grammar.isFirm_of_firstKind? first (by decide) (by decide)
          have stands := (rest_start firm).trans cut
          have kind : (ofTokens (scan written.render)).skipBreaks.kind? = some .name := by
            rw [kind?, stands]
            rfl
          have next : (ofTokens (scan written.render)).skipBreaks.nextKind? = some .roundOpen := by
            rw [nextKind?, stands, behind, List.tail_cons, ← firstKind?,
              Grammar.firstKind?_mark rfl]
          have starts := Grammar.StartsCall.named kind next
          rw [text_of_rest stands, ← named] at starts
          refine ofPayload_of_start canonical.isCall opens firm starts (rest_step stands) ?_
          rw [rest_step stands, cut]
          exact Nat.le_succ _

end Annotation

end DocComment
