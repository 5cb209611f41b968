import DocComment.Proofs.Annotation.Canonical

/-!
# Reading written values

A written value is read in front of the mark that ends its argument.  A quote and a
literal are read back as they are (`readsBack_quoted`, `readsBack_literal`), and a nested call
is if what stands behind its name is (`readsBack_nested`).
-/

namespace DocComment

open Token

namespace Annotation

open Read Cursor ArgumentValue

namespace Grammar

variable {naming : Naming} {text rest : Text} {cursor : Cursor}

/-! ## In front of a mark -/

/-- The text begins with the comma or the parenthesis that ends an argument. -/
def EndsArgument (rest : Text) : Prop :=
  ∃ c more, rest = c :: more ∧ (c = ',' ∨ c = ')')

theorem firstKind?_mark {c : Char} {kind : Kind} (marks : markKind? c = some kind) (more : Text) :
    firstKind? (c :: more) = some kind := by
  rw [firstKind?_cons, piece_mark marks]

/-- The text begins neither with padding nor with a line break. -/
structure IsFirm (text : Text) : Prop where
  padding : firstKind? text ≠ some .padding
  lineBreak : firstKind? text ≠ some .lineBreak

theorem isFirm_of_firstKind? {kind : Kind} (first : firstKind? text = some kind)
    (padding : kind ≠ .padding) (lineBreak : kind ≠ .lineBreak) : IsFirm text where
  padding same := padding (Option.some.inj (first.symm.trans same))
  lineBreak same := lineBreak (Option.some.inj (first.symm.trans same))

theorem IsFirm.skipBreaks (firm : IsFirm text) (stands : cursor.rest = scan text) :
    cursor.skipBreaks.rest = scan text := by
  rw [Cursor.skipBreaks, skipWhile, stands]
  have padding := firm.padding
  have lineBreak := firm.lineBreak
  rw [firstKind?] at padding lineBreak
  cases found : scan text with
  | nil => rfl
  | cons token tokens =>
      rw [found] at padding lineBreak
      dsimp only
      refine List.dropWhile_cons_of_neg fun breaks => ?_
      rw [Bool.or_eq_true, beq_iff_eq, beq_iff_eq] at breaks
      exact breaks.elim (fun same => padding (congrArg some same)) fun same =>
        lineBreak (congrArg some same)

namespace EndsArgument

variable (ends : EndsArgument rest)
include ends

theorem exists_mark :
    ∃ c kind more, rest = c :: more ∧ markKind? c = some kind ∧
    (kind = .comma ∨ kind = .roundClose) := by
  obtain ⟨c, more, rfl, rfl | rfl⟩ := ends
  · exact ⟨_, _, more, rfl, rfl, Or.inl rfl⟩
  · exact ⟨_, _, more, rfl, rfl, Or.inr rfl⟩

theorem exists_scan : ∃ token tokens, scan rest = token :: tokens ∧ endsArgument token = true := by
  obtain ⟨c, kind, more, rfl, marks, rfl | rfl⟩ := ends.exists_mark
  · exact ⟨_, _, scan_mark marks more, rfl⟩
  · exact ⟨_, _, scan_mark marks more, rfl⟩

theorem scan_append (quoteless : Quoteless (scan text)) :
    scan (text ++ rest) = scan text ++ scan rest := by
  obtain ⟨c, kind, more, rfl, marks, -⟩ := ends.exists_mark
  exact scan_append_mark quoteless marks more

theorem dropWhile : rest.dropWhile isPadding = rest := by
  obtain ⟨c, kind, more, rfl, marks, -⟩ := ends.exists_mark
  exact List.dropWhile_cons_of_neg (by simp [isPadding_of_mark marks])

theorem endsWord : rest.EndsWord := by
  obtain ⟨c, kind, more, rfl, marks, -⟩ := ends.exists_mark
  exact endsWord_of_mark marks more

theorem isFirm : IsFirm rest := by
  obtain ⟨c, kind, more, rfl, marks, rfl | rfl⟩ := ends.exists_mark
  · exact isFirm_of_firstKind? (firstKind?_mark marks more) (by decide) (by decide)
  · exact isFirm_of_firstKind? (firstKind?_mark marks more) (by decide) (by decide)

end EndsArgument

/-! ## Values that are no calls -/

/-- In front of its written form and a mark that ends the argument, the value is
read but for raw texts. -/
def ReadsBack (naming : Naming) (written : ArgumentValue) : Prop :=
  ∀ {rest : Text} {cursor : Cursor} {depth : Nat}, EndsArgument rest →
    cursor.rest = scan (written.render ++ rest) → cursor.rest.length ≤ depth →
    ∃ found after, value naming (call naming depth) cursor = .ok found after ∧
      found.withoutRaw = written.withoutRaw ∧ after.rest = scan rest

theorem readsBack_quoted {content : Text} {quote : Char} (isQuote : IsQuote content quote) :
    ReadsBack naming (.quoted content quote) := by
  intro rest cursor depth ends stands _
  have cut : cursor.rest = ⟨.quoted, Text.Quoted.encode quote content⟩ :: scan rest := by
    rw [stands, render]
    exact scan_append_of_isSole isQuote.sole rfl ends.endsWord
  have here : cursor.kind? = some .quoted := by
    rw [kind?, cut]
    rfl
  refine ⟨.quoted content quote, cursor.advance, ?_, rfl, ?_⟩
  · have head : (Text.Quoted.encode quote content).headD '"' = quote := by
      rw [Text.Quoted.encode]
      split <;> rfl
    rw [value_eq, if_pos here, run_bind_of_ok (run_takeText cut), isQuote.decoded, head]
    rfl
  · exact (reaches_advance cut (by simp)).rest_eq ends.dropWhile

theorem readsBack_literal (isLiteral : IsLiteral text) : ReadsBack naming (.literal text) := by
  intro rest cursor depth ends stands _
  rw [render, ends.scan_append isLiteral.quoteless] at stands
  obtain ⟨token, tokens, marked, closes⟩ := ends.exists_scan
  have whole : literalLength 0 cursor.rest = (scan text).length := by
    rw [stands, marked]
    exact literalLength_append isLiteral.closed closes
  have unquoted : cursor.kind? ≠ some .quoted := by
    have unquoted := isLiteral.unquoted
    rw [kind?, stands]
    rw [firstKind?] at unquoted
    cases found : scan text with
    | nil =>
        rw [marked]
        simp only [endsArgument, Bool.or_eq_true, beq_iff_eq] at closes
        rcases closes with comma | close <;> simp [*]
    | cons first others =>
        rw [found] at unquoted
        exact unquoted
  have uncalled : Grammar.opensCall cursor.rest = false := by
    rw [stands, marked, opensCall_append_ends closes]
    exact isLiteral.uncalled
  have meant : literalText (cursor.rest.take (scan text).length) = text := by
    rw [stands, List.take_left,
      literalText_of_unbroken fun token => ne_lineBreak_of_mem_scan isLiteral.unbroken, textOf_scan]
    exact isLiteral.trimmed
  refine ⟨.literal text, cursor.forward (scan text).length, ?_, rfl, ?_⟩
  · rw [value_eq, if_neg unquoted, uncalled, if_neg Bool.false_ne_true,
      run_bind_of_ok (run_literal cursor), whole, meant]
    rfl
  · rw [forward, stands, List.drop_left]

/-! ## Names of calls -/

/-- What stands behind the name of a nested call: parentheses, or the mark that
ends the argument. -/
structure BehindName (parenthesised : Bool) (tail : Text) : Prop where
  mark : ∃ c kind more, tail = c :: more ∧ markKind? c = some kind ∧ kind ≠ .name ∧ kind ≠ .equals
  opens : parenthesised = true → ∃ more, tail = '(' :: more

section Names

variable {parenthesised : Bool} {written tail : Text}

theorem quoteless_of_isCallName (isName : IsCallName parenthesised written) :
    Quoteless (scan written) := by
  intro token mem other
  have held : Kind.other ∈ (scan written).map Token.kind := other ▸ List.mem_map_of_mem mem
  rcases isName with kinds | kinds | ⟨kinds, -⟩
  · simp [kinds] at held
  · simp [kinds] at held
  · simp [kinds] at held

namespace BehindName

variable (behind : BehindName parenthesised tail)
include behind

theorem dropWhile : tail.dropWhile isPadding = tail := by
  obtain ⟨c, kind, more, rfl, marks, -⟩ := behind.mark
  exact List.dropWhile_cons_of_neg (by simp [isPadding_of_mark marks])

theorem exists_scan : ∃ token tokens, scan tail = token :: tokens ∧ token.kind ≠ .name ∧
    token.kind ≠ .equals ∧
    token.kind ≠ .padding ∧ (parenthesised = true → token.kind = .roundOpen) := by
  obtain ⟨c, kind, more, rfl, marks, name, equals⟩ := behind.mark
  refine ⟨_, _, scan_mark marks more, name, equals, ?_, fun round => ?_⟩
  · rintro rfl
    cases Kind.isMark_of_markKind? marks
  · obtain ⟨inner, same⟩ := behind.opens round
    obtain ⟨rfl, -⟩ := List.cons.inj same
    cases marks
    rfl

theorem scan_append (isName : IsCallName parenthesised written) :
    scan (written ++ tail) = scan written ++ scan tail := by
  obtain ⟨c, kind, more, rfl, marks, -⟩ := behind.mark
  exact scan_append_mark (quoteless_of_isCallName isName) marks more

/-- A written name announces a call, and no key. -/
theorem announces (isName : IsCallName parenthesised written) :
    ∃ first others, scan (written ++ tail) = first :: others ∧
      (first.kind = .tag ∨ first.kind = .name) ∧
      Grammar.opensCall (first :: others) = true ∧ opensKey (first :: others) = false := by
  rw [behind.scan_append isName]
  obtain ⟨token, tokens, marked, name, equals, padding, round⟩ := behind.exists_scan
  rw [marked]
  rcases isName with kinds | kinds | ⟨kinds, opens⟩
  · obtain ⟨first, found, tag⟩ := List.map_eq_singleton_iff.mp kinds
    exact ⟨first, token :: tokens, by rw [found]; rfl,
      Or.inl tag, by simp [opensCall, tag], by simp [opensKey, tag]⟩
  · obtain ⟨first, others, found, tag, -⟩ := List.map_eq_cons_iff.mp kinds
    exact ⟨first, others ++ token :: tokens, by rw [found]; rfl,
      Or.inl tag, by simp [opensCall, tag],
      by simp [opensKey, tag]⟩
  · obtain ⟨first, found, named⟩ := List.map_eq_singleton_iff.mp kinds
    exact ⟨first, token :: tokens, by rw [found]; rfl,
      Or.inr named, by simp [opensCall, named, round opens],
      by simp [opensKey, round opens]⟩

end BehindName

/-- A name of one token is taken. -/
theorem run_writtenName_one {token : Token} (behind : BehindName parenthesised tail)
    (firm : token.kind ≠ .padding) (stands : cursor.rest = token :: scan tail) :
    writtenName cursor = .ok token.text cursor.step.skipPadding ∧
    cursor.Reaches tail cursor.step.skipPadding := by
  refine ⟨?_, reaches_skipPadding stands firm⟩
  have apart : cursor.step.isAt .name = false := by
    obtain ⟨next, tokens, marked, name, -⟩ := behind.exists_scan
    rw [isAt_of_rest ((rest_step stands).trans marked)]
    exact beq_eq_false_iff_ne.mpr name
  unfold writtenName
  rw [run_get_bind, text_of_rest stands, run_bind_of_ok (run_step cursor), run_get_bind, apart,
    Bool.and_false, if_neg Bool.false_ne_true]
  rfl

/-- A tag is taken with the name that goes on with it. -/
theorem run_writtenName_two {first second : Token} (tag : first.text.head? = some '@')
    (name : second.kind = .name) (stands : cursor.rest = first :: second :: scan tail) :
    writtenName cursor = .ok (first.text ++ second.text) cursor.step.step.skipPadding ∧
      cursor.Reaches tail cursor.step.step.skipPadding := by
  have later : cursor.step.rest = second :: scan tail := rest_step stands
  constructor
  · obtain ⟨more, written⟩ := List.head?_eq_some_iff.mp tag
    have here : (Text.startsWith ['@'] first.text && cursor.step.isAt .name) = true := by
      rw [isAt_of_rest later, name, written]
      rfl
    unfold writtenName
    rw [run_get_bind, text_of_rest stands, run_bind_of_ok (run_step cursor), run_get_bind, here,
      if_pos rfl, run_bind_of_ok (run_step _), text_of_rest later]
    rfl
  · refine (reaches_skipPadding later (by simp [name])).of_le ?_
    rw [later, stands]
    exact Nat.le_succ _

/-- A written name is taken as a whole. -/
theorem run_writtenName (isName : IsCallName parenthesised written)
    (behind : BehindName parenthesised tail) (stands : cursor.rest = scan (written ++ tail)) :
    ∃ after, writtenName cursor = .ok written after ∧ after.rest = scan tail ∧
      after.rest.length < cursor.rest.length := by
  rw [behind.scan_append isName] at stands
  have whole := textOf_scan written
  have one {kind : Kind} (firm : kind ≠ .padding) (kinds : (scan written).map Token.kind = [kind]) :
      ∃ after, writtenName cursor = .ok written after ∧ after.rest = scan tail ∧
        after.rest.length < cursor.rest.length := by
    obtain ⟨token, found, rfl⟩ := List.map_eq_singleton_iff.mp kinds
    rw [found] at stands whole
    obtain ⟨run, reaches⟩ := run_writtenName_one behind firm stands
    rw [textOf_cons, textOf_nil, List.append_nil] at whole
    rw [whole] at run
    exact ⟨_, run, reaches.rest_eq behind.dropWhile, reaches.shorter⟩
  rcases isName with kinds | kinds | ⟨kinds, -⟩
  · exact one (by decide) kinds
  · obtain ⟨first, others, found, tag, kinds⟩ := List.map_eq_cons_iff.mp kinds
    obtain ⟨second, rfl, name⟩ := List.map_eq_singleton_iff.mp kinds
    have head : first.text.head? = some '@' :=
      (isPiece_of_mem_scan (found ▸ List.mem_cons_self) (by simp [tag])).head?_of_tag tag
    rw [found] at stands whole
    obtain ⟨run, reaches⟩ := run_writtenName_two head name stands
    rw [textOf_cons, textOf_cons, textOf_nil, List.append_nil] at whole
    rw [whole] at run
    exact ⟨_, run, reaches.rest_eq behind.dropWhile, reaches.shorter⟩
  · exact one (by decide) kinds

end Names

/-! ## Calls -/

/-- The written form of a call without its name. -/
def renderBehindName (call : Annotation) : Text :=
  parenthesise call.parenthesised (renderArguments call.arguments)

theorem render_nested {call : Annotation} {name : Text} (named : call.writtenName = some name) :
    (ArgumentValue.nested call).render = name ++ renderBehindName call := by
  obtain ⟨_, _, _, _, _, _⟩ := call
  cases named
  simp [render, renderCall, renderBehindName]

theorem behindName_of_isCall {name : Text} {call : Annotation} (isCall : IsCall naming name call)
    (ends : EndsArgument rest) : BehindName call.parenthesised (renderBehindName call ++ rest) := by
  cases isCall with
  | bare =>
      obtain ⟨c, kind, more, rfl, marks, known⟩ := ends.exists_mark
      refine ⟨⟨c, kind, more, rfl, marks, ?_⟩, fun opens => ?_⟩
      · rcases known with rfl | rfl
        · decide
        · decide
      · cases opens
  | parenthesised => exact ⟨⟨'(', .roundOpen, _, rfl, rfl, by decide, by decide⟩, fun _ => ⟨_, rfl⟩⟩

/-- Behind its name the call is read, apart from that name and from raw texts. -/
def CallReadsBack (naming : Naming) (name : Text) (written : Annotation) : Prop :=
  ∀ {rest : Text} {cursor : Cursor} {depth : Nat}, (written.parenthesised = false → EndsArgument rest) →
    cursor.rest = scan (renderBehindName written ++ rest) → cursor.rest.length < depth →
    ∃ found after, call naming depth name cursor = .ok found after ∧
      callWithoutRaw { found with writtenName := written.writtenName } = callWithoutRaw written ∧
      after.rest = scan (rest.dropWhile isPadding)

theorem readsBack_nested {written : Annotation} {name : Text}
    (named : written.writtenName = some name) (isName : IsCallName written.parenthesised name)
    (isCall : IsCall naming (fullName naming name) written)
    (back : CallReadsBack naming (fullName naming name) written) :
    ReadsBack naming (.nested written) := by
  intro rest cursor depth ends stands within
  have behind := behindName_of_isCall isCall ends
  rw [render_nested named, List.append_assoc] at stands
  obtain ⟨first, others, found, known, opens, -⟩ := behind.announces isName
  have unquoted : cursor.kind? ≠ some .quoted := by
    rw [kind?, stands, found]
    rcases known with tag | name <;> simp [*]
  obtain ⟨middle, taken, stands', shorter⟩ := run_writtenName isName behind stands
  obtain ⟨read, after, run, same, reached⟩ :=
    back (fun _ => ends) stands' (Nat.lt_of_lt_of_le shorter within)
  rw [← found, ← stands] at opens
  refine ⟨.nested
    { read with writtenName := some name, raw := Text.trim (after.textSince cursor.index) }, after,
    ?_, ?_, reached.trans (congrArg scan ends.dropWhile)⟩
  · rw [value_eq, if_neg unquoted, opens, if_pos rfl, run_bind_of_ok (run_nestedCall taken run)]
    rfl
  · rw [named, callWithoutRaw_eq] at same
    rw [withoutRaw, withoutRaw, callWithoutRaw_eq, ← same]

end Grammar

end Annotation

end DocComment
