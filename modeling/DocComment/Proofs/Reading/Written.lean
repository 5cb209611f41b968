import DocComment.Proofs.Reading.LineEnd
import DocComment.Proofs.Reading.Sealing
import DocComment.Proofs.Reading.Tag

/-!
# Tags written with any separator

A tag that is read back from its written form is also read back when other
padding than a space separates its name from its payload
(`exists_writesTag`).  What its tokens hold and how they end matters for what
may stand behind the tag: quotes and halves of markers come from the
description only.
-/

namespace DocComment

open Token

namespace Token

/-! ## How words end -/

/-- A character that is no blank and no part of a marker. -/
def isOrdinary (c : Char) : Bool :=
  !isBlank c && c != '/' && c != '*'

/-- Letters, digits, underscores and hyphens have codes that no blank has. -/
theorem isOrdinary_of_isNameChar {c : Char} (inside : isNameChar c = true) :
    isOrdinary c = true := by
  have slash : c ≠ '/' := (ne_of_class (by decide) inside)
  have star : c ≠ '*' := (ne_of_class (by decide) inside)
  have black : isBlank c = false := by
    have code : (48 ≤ c.toNat ∧ c.toNat ≤ 57) ∨ (65 ≤ c.toNat ∧ c.toNat ≤ 90) ∨
        (97 ≤ c.toNat ∧ c.toNat ≤ 122) ∨ c.toNat = 95 ∨ c.toNat = 45 := by
      have classes : isNameChar c = (((c.isAlpha || c.isDigit) || c == '_') || c == '-') := rfl
      have digits : c.isDigit = true ↔ 48 ≤ c.toNat ∧ c.toNat ≤ 57 := by
        simp only [Char.isDigit, Bool.and_eq_true, decide_eq_true_eq,
          UInt32.le_iff_toNat_le, ge_iff_le]
        rfl
      rw [classes, Bool.or_eq_true, Bool.or_eq_true, Bool.or_eq_true, isAlpha_eq, Bool.or_eq_true,
        isUpper_iff, isLower_iff, digits, beq_iff_eq, beq_iff_eq] at inside
      rcases inside with (((letter | letter) | digit) | rfl) | rfl
      · exact .inr (.inl letter)
      · exact .inr (.inr (.inl letter))
      · exact .inl digit
      · decide
      · decide
    rw [Bool.eq_false_iff]
    intro blank
    simp only [isBlank, Bool.or_eq_true, Bool.and_eq_true, decide_eq_true_eq, beq_iff_eq] at blank
    omega
  simp [isOrdinary, slash, star, black]

theorem isOrdinary_of_isNameStart {c : Char} (starts : isNameStart c = true) :
    isOrdinary c = true :=
  isOrdinary_of_isNameChar (isNameChar_of_isNameStart starts)

theorem isOrdinary_of_isVariableChar {c : Char} (inside : isVariableChar c = true) :
    isOrdinary c = true :=
  isOrdinary_of_isNameChar (by rw [isNameChar, inside, Bool.true_or])

theorem isOrdinary_of_isDigit {c : Char} (digit : c.isDigit = true) : isOrdinary c = true := by
  refine isOrdinary_of_isVariableChar ?_
  change ((c.isAlpha || c.isDigit) || c == '_') = true
  rw [digit, Bool.or_true, Bool.true_or]

theorem isOrdinary_of_mark {c : Char} {kind : Kind} (marks : markKind? c = some kind) :
    isOrdinary c = true := by
  unfold markKind? at marks
  split at marks
  all_goals first | decide | cases marks

theorem isOrdinary_of_mem_segments {c : Char} {text : Text}
    (mem : c ∈ text.take (segmentsLength text)) :
    isOrdinary c = true := by
  rcases mem_take_segmentsLength c mem with held | rfl
  · exact isOrdinary_of_isNameChar held
  · decide

theorem isOrdinary_of_mem_number {c : Char} {text : Text}
    (mem : c ∈ text.take (numberLength text)) :
    isOrdinary c = true := by
  rcases mem_take_numberLength c mem with held | rfl
  · exact isOrdinary_of_isDigit held
  · decide

/-- A token of a type ends in no blank and in no part of a marker. -/
theorem Cut.isOrdinary_of_getLast? {c d : Char} {rest : Text} {kind : Kind} {length : Nat}
    (cut : Cut c rest kind length) (inside : kind.isWithinType = true) (firm : kind ≠ .padding)
    (last : (c :: rest.take length).getLast? = some d) : isOrdinary d = true := by
  have mem := List.mem_of_getLast? last
  have marked {mark e : Char} {text : Text} (first : isOrdinary mark = true)
      (second : isOrdinary e = true) (others : ∀ d ∈ text, isOrdinary d = true) :
      ∀ d ∈ mark :: e :: text, isOrdinary d = true :=
    List.forall_mem_cons.mpr ⟨first, List.forall_mem_cons.mpr ⟨second, others⟩⟩
  cases cut with
  | feed | carriage | opening | closing | tag | other => cases inside
  | padding => exact absurd rfl firm
  | varName more starts =>
      rw [List.take_succ_cons] at mem
      exact marked (by decide) (isOrdinary_of_isNameStart starts) (fun d held =>
        isOrdinary_of_isVariableChar (mem_take_runLength isVariableChar more d held)) d mem
  | rooted more starts =>
      rw [List.take_succ_cons] at mem
      exact marked (by decide) (isOrdinary_of_isNameStart starts)
        (fun d => isOrdinary_of_mem_segments) d mem
  | name rest starts =>
      rcases List.mem_cons.mp mem with rfl | mem
      · exact isOrdinary_of_isNameStart starts
      · exact isOrdinary_of_mem_segments mem
  | quoted quote closed =>
      rw [List.getLast?_cons, getLast?_of_closed closed] at last
      cases last
      rcases quote with rfl | rfl <;> decide
  | number rest digit =>
      rcases List.mem_cons.mp mem with rfl | mem
      · exact isOrdinary_of_isDigit digit
      · exact isOrdinary_of_mem_number mem
  | negative more digit =>
      rw [List.take_succ_cons] at mem
      exact marked (by decide) (isOrdinary_of_isDigit digit)
        (fun d => isOrdinary_of_mem_number) d mem
  | ellipsis more =>
      cases last
      rfl
  | mark rest marks =>
      cases last
      exact isOrdinary_of_mark marks

/-- A token of a type begins with no blank and with no part of a marker. -/
theorem Cut.isOrdinary_of_head? {c : Char} {rest : Text} {kind : Kind} {length : Nat}
    (cut : Cut c rest kind length) (inside : kind.isWithinType = true) (firm : kind ≠ .padding) :
    isOrdinary c = true := by
  cases cut with
  | feed | carriage | opening | closing | tag | other => cases inside
  | padding => exact absurd rfl firm
  | varName | rooted | negative | ellipsis => rfl
  | name rest starts => exact isOrdinary_of_isNameStart starts
  | quoted quote closed => rcases quote with rfl | rfl <;> rfl
  | number rest digit => exact isOrdinary_of_isDigit digit
  | mark rest marks => exact isOrdinary_of_mark marks

theorem isOrdinary_iff {c : Char} :
    isOrdinary c = true ↔ isBlank c = false ∧ c ≠ '/' ∧ c ≠ '*' := by
  simp [isOrdinary, and_assoc]

variable {text : Text}

/-- Quotes stand in no token of unknown text. -/
def Quoteless (tokens : List Token) : Prop :=
  ∀ token ∈ tokens, token.kind = .other → '"' ∉ token.text ∧ '\'' ∉ token.text

theorem quoteless_scan (double : '"' ∉ text) (single : '\'' ∉ text) : Quoteless (scan text) :=
  fun _ mem _ =>
  ⟨fun held => double ((text_infix_of_mem_scan mem).subset held),
    fun held => single ((text_infix_of_mem_scan mem).subset held)⟩

/-- The last token of a text that does not end in a blank is no padding. -/
theorem ne_padding_of_getLast? (firm : ¬ Text.EndsInBlank text) :
    ∀ token, (scan text).getLast? = some token → token.kind ≠ .padding := by
  intro token last pads
  have mem := List.mem_of_getLast? last
  obtain ⟨front, split⟩ := List.getLast?_eq_some_iff.mp last
  have soft := (isPiece_of_mem_scan mem (by rw [pads]; decide)).text_of_padding pads
  have whole := textOf_scan text
  rw [split, textOf_append, textOf_cons, textOf_nil, List.append_nil] at whole
  cases final : token.text.getLast? with
  | none => exact text_ne_nil_of_mem_scan mem (List.getLast?_eq_none_iff.mp final)
  | some c =>
      refine firm ⟨c, ?_, isBlank_of_isPadding (soft c (List.mem_of_getLast? final))⟩
      rw [← whole, List.getLast?_append, final]
      rfl

end Token

theorem endsEntry_closingLine : EndsEntry closingLine where
  head := rfl
  scanned := ⟨['\n', ' '], Cleanup.closer, rfl, .inr rfl⟩

/-! ## Subjects -/

namespace Payload.Grammar

open Read Cursor

variable {subject : Subject} {text tail : Text}

/-- The tokens of a written subject, up to what follows it, may stand within a type. -/
theorem exists_tokens_of_subject (canonical : subject.IsCanonical) (ends : EndsSubject tail) :
    ∃ tokens, scan (Text.joinParts subject.parts ++ tail) =
      tokens ++ scan (tail.dropWhile isPadding) ∧
      ∀ token ∈ tokens, token.kind.isWithinType = true := by
  obtain ⟨after, run, reaches⟩ :=
    @run_subject ⟨[], scan (Text.joinParts subject.parts ++ tail)⟩ tail subject
    canonical ends rfl
  obtain ⟨tokens, split, kinds⟩ := ((staysWithin_subject subject.kind _).of_ok run).exists_crossed
  rw [reaches.rest] at split
  exact ⟨tokens, split, kinds⟩

theorem render_typed (canonical : subject.IsCanonical) (description : Text) :
    (Payload.typed subject description).render =
      Text.joinParts subject.parts ++ (if description.isEmpty then [] else ' ' :: description) :=
  Text.joinParts_concat canonical.exists_part description

theorem solid_joinParts (canonical : subject.IsCanonical) :
    (Text.joinParts subject.parts).Solid := by
  have none : DescriptionIsCanonical [] := ⟨nofun, Text.unclosed_nil, rfl⟩
  have solid := solid_render canonical none
  rwa [render_typed canonical, List.isEmpty_nil, if_pos rfl, List.append_nil] at solid

/-- The tokens of a written subject in front of the last line of a comment. -/
theorem exists_cover_of_subject (canonical : subject.IsCanonical) :
    ∃ tokens, scan (Text.joinParts subject.parts ++ closingLine) = tokens ++ lastLine ∧
      textOf tokens = Text.joinParts subject.parts ∧
      ∀ token ∈ tokens, token.kind.isWithinType = true := by
  obtain ⟨tokens, split, kinds⟩ := exists_tokens_of_subject canonical (.inl endsEntry_closingLine)
  have whole := textOf_scan (Text.joinParts subject.parts ++ closingLine)
  rw [split, textOf_append, textOf_scan] at whole
  exact ⟨tokens, split, List.append_cancel_right whole, kinds⟩

/-- A written subject begins with no blank and with no part of a marker. -/
theorem exists_head_of_subject (canonical : subject.IsCanonical) :
    ∃ c, (Text.joinParts subject.parts).head? = some c ∧ isOrdinary c = true := by
  obtain ⟨tokens, split, covers, kinds⟩ := exists_cover_of_subject canonical
  obtain ⟨kind, firm, starts⟩ := canonical.exists_startsWith
  obtain ⟨c, more, written⟩ := List.exists_cons_of_ne_nil starts.proper
  have first := starts.kind? closingLine
  obtain ⟨d, rest, length, same, cut⟩ := exists_cut_of_firstKind? first
  rw [written] at same
  cases same
  refine ⟨c, congrArg List.head? written, cut.isOrdinary_of_head? ?_ firm⟩
  cases tokens with
  | nil => exact absurd covers.symm starts.proper
  | cons token tokens =>
      rw [firstKind?, split] at first
      have same : token.kind = kind := Option.some.inj first
      exact same ▸ kinds token List.mem_cons_self

/-- A written subject ends in no blank and in no part of a marker. -/
theorem isOrdinary_of_subject (canonical : subject.IsCanonical) {c : Char}
    (last : (Text.joinParts subject.parts).getLast? = some c) : isOrdinary c = true := by
  obtain ⟨tokens, split, covers, kinds⟩ := exists_cover_of_subject canonical
  cases final : tokens.getLast? with
  | none =>
      rw [List.getLast?_eq_none_iff.mp final] at covers
      exact absurd covers.symm (solid_joinParts canonical).proper
  | some token =>
      obtain ⟨front, same⟩ := List.getLast?_eq_some_iff.mp final
      have inside := kinds token (List.mem_of_getLast? final)
      have known : token.kind ≠ .other := fun other => by
        rw [other] at inside
        cases inside
      have mem : token ∈ scan (Text.joinParts subject.parts ++ closingLine) := by
        rw [split]
        exact List.mem_append_left _ (List.mem_of_getLast? final)
      have piece := isPiece_of_mem_scan mem known
      rw [same, textOf_append, textOf_cons, textOf_nil, List.append_nil] at covers
      have ends : token.text.getLast? = some c := by
        rw [← covers, List.getLast?_append_of_ne_nil _ (text_ne_nil_of_mem_scan mem)] at last
        exact last
      have firm : token.kind ≠ .padding := by
        intro pads
        obtain ⟨d, final, dark⟩ := (solid_joinParts canonical).last
        rw [last] at final
        cases final
        rw [piece.text_of_padding pads c (List.mem_of_getLast? ends)] at dark
        cases dark
      obtain ⟨d, rest, length, cut, written⟩ := piece.exists_cut rfl
      rw [written] at ends
      exact cut.isOrdinary_of_getLast? inside firm ends

/-- Only the description of a written payload may have quotes in unknown text. -/
theorem quoteless_typed (canonical : subject.IsCanonical) (described : DescriptionIsCanonical text)
    (double : '"' ∉ text) (single : '\'' ∉ text) :
    Quoteless (scan ((Payload.typed subject text).render ++ closingLine)) := by
  obtain ⟨follows, skipped⟩ := endsSubject_of_described described endsEntry_closingLine
  obtain ⟨tokens, split, kinds⟩ := exists_tokens_of_subject canonical follows
  rw [render_typed canonical, List.append_assoc, split, skipped]
  intro token mem other
  rcases List.mem_append.mp mem with held | held
  · have inside := kinds token held
    rw [other] at inside
    cases inside
  · refine quoteless_scan ?_ ?_ token held other
    · simp [double, closingLine, Cleanup.closer]
    · simp [single, closingLine, Cleanup.closer]

end Payload.Grammar

/-! ## Tags -/

namespace Tag.IsCanonical

open Cursor

variable {tag : Tag} (canonical : tag.IsCanonical) {separator : Text} (proper : separator ≠ [])
  (soft : ∀ c ∈ separator, isPadding c = true) (full : tag.payload.render ≠ [])
include canonical proper soft full

/-- Behind the name of a tag stands padding that ends it, and then the payload. -/
theorem behind_separator (rest : Text) :
    (separator ++ (tag.payload.render ++ rest)).EndsWord ∧
      (separator ++ (tag.payload.render ++ rest)).dropWhile isPadding =
        tag.payload.render ++ rest := by
  obtain ⟨c, more, written⟩ := List.exists_cons_of_ne_nil full
  obtain ⟨dark, -⟩ := canonical.head_payload (List.head?_eq_some_iff.mpr ⟨more, written⟩)
  obtain ⟨d, others, begun⟩ := List.exists_cons_of_ne_nil proper
  constructor
  · have pads := soft d (begun ▸ List.mem_cons_self)
    rw [begun]
    rintro e ⟨⟩
    rw [isPadding, Bool.or_eq_true, beq_iff_eq, beq_iff_eq] at pads
    rcases pads with rfl | rfl
    · decide
    · decide
  · rw [List.dropWhile_append_of_pos soft, written, List.cons_append,
      List.dropWhile_cons_of_neg (by simp [dark])]

theorem scan_written (rest : Text) :
    ∃ padding, (∀ token ∈ padding, token.kind = .padding) ∧
      scan (tag.name ++ separator ++ tag.payload.render ++ rest) =
        ⟨.tag, tag.name⟩ :: (padding ++ scan (tag.payload.render ++ rest)) := by
  obtain ⟨ends, skipped⟩ := behind_separator canonical proper soft full rest
  refine ⟨(scan (separator ++ (tag.payload.render ++ rest))).takeWhile fun token =>
    token.kind == .padding,
    fun token mem =>
    beq_iff_eq.mp (List.mem_takeWhile_imp (p := fun token : Token => token.kind == .padding) mem),
    ?_⟩
  have behind := dropWhile_scan (separator ++ (tag.payload.render ++ rest))
  rw [skipped] at behind
  rw [← behind, List.takeWhile_append_dropWhile, List.append_assoc, List.append_assoc,
    scan_append_of_isSole canonical.sole rfl ends]

/-- Where the payload has no quotes in unknown text, the tag has none. -/
theorem quoteless_written (quoteless : Quoteless (scan (tag.payload.render ++ closingLine))) :
    Quoteless (scan (tag.name ++ separator ++ tag.payload.render ++ closingLine)) := by
  obtain ⟨padding, pads, scanned⟩ := scan_written canonical proper soft full closingLine
  rw [scanned]
  intro token mem other
  rcases List.mem_cons.mp mem with rfl | mem
  · cases other
  · rcases List.mem_append.mp mem with held | held
    · rw [pads token held] at other
      cases other
    · exact quoteless token held other

/-- A tag is read back from its written form with any padding behind its name. -/
theorem exists_writesTag (unbroken : '\n' ∉ tag.payload.render)
    (firm : ¬ Text.EndsInBlank tag.payload.render) :
    ∃ span, Dialect.WritesTag .plain (tag.name ++ separator ++ tag.payload.render)
      (scan (tag.name ++ separator ++ tag.payload.render))
        (.tag ⟨tag.name, tag.payload, some span, none⟩) := by
  have solid : ¬ Text.EndsInBlank (tag.name ++ separator ++ tag.payload.render) :=
    Text.not_endsInBlank_append full firm _
  -- The last line of the comment begins with a line feed, which ends all tokens in front of it.
  have cut : scan (tag.name ++ separator ++ tag.payload.render ++ closingLine) =
      scan (tag.name ++ separator ++ tag.payload.render) ++ lastLine := by
    refine scan_append_of_ends
      ⟨parted_feed _, by decide, ?_, nofun, fun _ => .inr ?_, fun _ => .inl (.inr rfl)⟩
    · rintro c ⟨⟩ pads
      cases pads
    · exact fun last => solid ⟨'\r', last, rfl⟩
  obtain ⟨ends, skipped⟩ := behind_separator canonical proper soft full closingLine
  let here : Cursor := ⟨[], scan (tag.name ++ separator ++ tag.payload.render) ++ lastLine⟩
  have stands : here.rest =
      scan (tag.name ++ (separator ++ (tag.payload.render ++ closingLine))) := by
    rw [← List.append_assoc, ← List.append_assoc, cut]
  obtain ⟨middle, named, behind⟩ := canonical.run_tagName ends stands
  rw [skipped, ← starred_of_unbroken unbroken] at behind
  obtain ⟨after, taken, reached⟩ := canonical.run_payload endsEntry_closingLine behind
  have line : after.isAtLineEnd = true := by
    rw [isAtLineEnd, kind?, reached, scan_closingLine]
    rfl
  obtain ⟨span, run⟩ := Dialect.run_tag_of_payload named taken line
  have begins := scan_append_of_isSole canonical.sole rfl ends
  have marked : here.isAt .tag = true := by
    rw [isAt, kind?, stands, begins]
    rfl
  refine ⟨span, cut, textOf_scan _, ?_, ne_padding_of_getLast? solid, here, after, rfl, ?_, reached⟩
  · obtain ⟨padding, -, scanned⟩ := scan_written canonical proper soft full []
    rw [List.append_nil] at scanned
    rw [scanned]
    rfl
  · rw [Dialect.entry, Read.run_get_bind, marked, if_pos rfl, run]

end Tag.IsCanonical

end DocComment
