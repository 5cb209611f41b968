import DocComment.Proofs.Reading.Ahead
import DocComment.Proofs.Reading.Grafting
import DocComment.Proofs.Reading.Origin
import DocComment.Proofs.Token.Following

/-!
# Comments with one tag

Around a tag that is the only entry of a comment with content stand blanks and line breaks, up to
the markers (`exists_sole_of_read`).  A subject is separated from what follows it, and a description
holds the words of its tokens (`exists_of_description`).
-/

namespace DocComment

open Token

namespace Token

variable {text : Text} {tokens : List Token}

/-- No two paddings of a text stand side by side. -/
theorem kind_ne_padding_of_padding {first next : Token} {behind : List Token}
    (cut : unjoined text = first :: next :: behind)
    (pads : first.kind = .padding) : next.kind ≠ .padding := by
  intro pads'
  obtain ⟨c, rest, rfl, rfl, covers⟩ := exists_piece cut
  have length : (piece c rest).2 = runLength isPadding rest := by
    have cut : Cut c rest (piece c rest).1 (piece c rest).2 := cut_of_piece (Prod.ext rfl rfl)
    generalize (piece c rest).1 = kind, (piece c rest).2 = length at cut pads
    cases pads
    cases cut with
    | padding => rfl
    | mark _ marks => cases Kind.isMark_of_markKind? marks
  have piece := isPiece_of_mem_unjoined (cut ▸ List.mem_cons_of_mem _ List.mem_cons_self)
  have soft := piece.text_of_padding pads'
  obtain ⟨d, more, _, -, written⟩ := piece
  have head : (rest.dropWhile isPadding).head? = some d := by
    rw [← drop_runLength, ← length, ← covers, textOf_cons, written]
    rfl
  have stops := List.head?_dropWhile_not isPadding rest
  rw [head] at stops
  rw [written] at soft
  exact Bool.false_ne_true (Eq.trans (Eq.symm stops) (soft d List.mem_cons_self))

theorem kind?_ne_padding_of_isAfterPadding {cursor : Cursor} (whole : cursor.tokens = scan text)
    (behind : cursor.isAfterPadding = true) : cursor.kind? ≠ some .padding := by
  obtain ⟨passed, rest⟩ := cursor
  cases passed with
  | nil => cases behind
  | cons first passed =>
      have pads : first.kind = .padding := beq_iff_eq.mp behind
      have known : first.kind ≠ .other := by
        rw [pads]
        decide
      have split : joined (unjoined text) = passed.reverse ++ first :: rest := by
        rw [joined_unjoined, ← whole, Cursor.tokens, List.reverse_cons, List.append_assoc]
        rfl
      obtain ⟨front, back, cut, -, rfl⟩ := exists_of_joined_cons known split
      rw [Cursor.kind?, head?_joined]
      intro pads'
      cases back with
      | nil => cases pads'
      | cons next back =>
        exact kind_ne_padding_of_padding (unjoined_textOf cut) pads (Option.some.inj pads')

end Token

namespace Payload.Grammar

open Read Cursor

variable {cursor after : Cursor}

/-! ## Words of a description -/

theorem words_dropSpace (text : Text) : Text.words (Text.dropSpace text) = Text.words text := by
  unfold Text.dropSpace
  split
  next rest => exact (@Text.words_append_break ' ' (by decide) [] rest).symm
  next => rfl

theorem words_trimEnd (text : Text) : Text.words (Text.trimEnd text) = Text.words text := by
  obtain ⟨trail, whole, blank⟩ := Text.exists_trimEnd text
  conv_rhs => rw [whole, Text.words_append_of_blank blank]

theorem inLine_takeWhile (tokens : List Token) :
    ∀ token ∈ tokens.takeWhile fun token => isInLine token.kind, isInLine token.kind = true :=
  List.all_eq_true.mp List.all_takeWhile

/-- The lines that continue a description hold the words of their tokens. -/
theorem exists_of_furtherLines {bound : Nat} {lines : List Text}
    (run : furtherLines bound cursor = .ok lines after) :
    ∃ taken, cursor.rest = taken ++ after.rest ∧ ∀ front : Text,
      Text.words (front ++ runningText taken) = Text.words front ++ lines.flatMap Text.words := by
  -- A line is taken with the line break in front of it, which keeps its words apart from those of
  -- any text there.
  have stops (front : Text) : Text.words (front ++ runningText []) = Text.words front ++ [] := by
    rw [List.append_nil]
    exact congrArg Text.words (List.append_nil front)
  induction bound generalizing cursor lines with
  | zero =>
      cases run
      exact ⟨[], rfl, stops⟩
  | succ bound ih =>
      rcases furtherLines_eq_ok run with ⟨-, rfl, rfl⟩ | ⟨more, others, ran, rfl⟩
      · exact ⟨[], rfl, stops⟩
      · obtain ⟨broken, rest, stands, breaks⟩ :=
          exists_cons_of_kind? (isAt_lineBreak_of_continues more)
        obtain ⟨taken, split, words⟩ := ih ran
        have moved : cursor.step.rest = rest := rest_step stands
        have line : rest = (rest.takeWhile fun token => isInLine token.kind) ++
            (taken ++ after.rest) := by
          rw [← split, toLineEnd_eq]
          change rest = _ ++ cursor.step.rest.dropWhile _
          rw [moved, List.takeWhile_append_dropWhile]
        refine ⟨broken :: ((rest.takeWhile fun token => isInLine token.kind) ++ taken), ?_,
          fun front => ?_⟩
        · rw [stands, List.cons_append, List.append_assoc, ← line]
        · rw [runningText_of_lineBreak breaks, runningText_append,
            runningText_of_inLine (inLine_takeWhile rest), Text.words_append_break (by decide),
            words, moved, List.flatMap_cons, words_trimEnd, words_dropSpace]

/-- A description holds the words of its tokens, those of its line alone if they are blank. -/
theorem exists_of_description {found : Text × Option Text}
    (run : description cursor = .ok found after) :
    ∃ taken, cursor.rest = taken ++ after.rest ∧ found.1 = Text.collapse (runningText taken) ∧
      ((∀ c ∈ textOf (cursor.rest.takeWhile fun token => isInLine token.kind), isBlank c = true) →
        taken = cursor.rest.takeWhile fun token => isInLine token.kind) := by
  obtain ⟨first, middle, line, run⟩ := bind_eq_ok.mp run
  rw [restOfLine_eq] at line
  cases line
  have inLine := inLine_takeWhile cursor.rest
  have whole : cursor.rest = (cursor.rest.takeWhile fun token => isInLine token.kind) ++
      cursor.toLineEnd.rest :=
    List.takeWhile_append_dropWhile.symm
  split at run
  next empty =>
    cases run
    refine ⟨_, whole, ?_, fun _ => rfl⟩
    rw [runningText_of_inLine inLine, Text.collapse, ← Text.words_trim, List.isEmpty_iff.mp empty]
    rfl
  next proper =>
    rw [run_get_bind] at run
    obtain ⟨lines, last, ran, finished⟩ := bind_eq_ok.mp run
    cases finished
    obtain ⟨taken, split, words⟩ := exists_of_furtherLines ran
    refine ⟨(cursor.rest.takeWhile fun token => isInLine token.kind) ++ taken, ?_, ?_,
      fun blank => ?_⟩
    · rw [List.append_assoc, ← split]
      exact whole
    · rw [runningText_append, runningText_of_inLine inLine, Text.collapse, words]
      change Text.join [' '] (List.flatMap Text.words (_ :: lines)) = _
      rw [List.flatMap_cons, Text.words_trim]
    · exact absurd (List.isEmpty_iff.mpr (Text.trim_eq_nil blank)) proper

/-- On a line that the closing marker ends a description is read to the end. -/
theorem run_description_of_closed {line rest : List Token} {closing : Token}
    (stands : cursor.rest = line ++ closing :: rest)
    (inLine : ∀ token ∈ line, isInLine token.kind = true) (closes : closing.kind = .closing) :
    ∃ found after, description cursor = .ok found after ∧ found.1 = Text.collapse (textOf line) ∧
      after.rest = closing :: rest := by
  have stops : isInLine closing.kind = false := by
    rw [closes]
    rfl
  have taken := takeWhile_line stands inLine stops
  have moved : cursor.toLineEnd.rest = closing :: rest := by
    rw [toLineEnd_eq, skipWhile_eq stands inLine stops]
  have halts : continues cursor.toLineEnd = false := by
    rw [continues, isAt_of_rest moved, closes]
    rfl
  rw [description, run_bind_of_ok (restOfLine_eq cursor), taken]
  split
  next empty =>
    refine ⟨_, cursor.toLineEnd, rfl, ?_, moved⟩
    rw [Text.collapse, ← Text.words_trim, List.isEmpty_iff.mp empty]
    rfl
  next proper =>
    rw [run_get_bind, run_bind_of_ok (run_furtherLines_of_not _ halts), Text.collapse,
      ← Text.words_trim (textOf line)]
    refine ⟨_, cursor.toLineEnd, rfl, ?_, moved⟩
    change Text.join [' '] (List.flatMap Text.words [_]) = _
    rw [List.flatMap_singleton]

end Payload.Grammar

namespace Dialect

open Cursor Payload.Grammar

variable {text : Text} {cursor before after : Cursor} {item : Entry} {items : List Entry}
  {tag : Tag}

/-! ## Entries without content -/

theorem not_isVoid_of_tag (run : entry plain before = .ok (.tag tag) after) :
    (Entry.tag tag).isVoid = false := by
  obtain ⟨-, -, taken⟩ := payload_of_entry run
  rcases payload_plain_eq_ok taken with ⟨kind, found, middle, described, -, -, -, same⟩ |
    ⟨written, -, same⟩
  · rw [Entry.isVoid, (Prod.mk.inj same).1]
    rfl
  · rw [Entry.isVoid, (Prod.mk.inj same).1]
    rfl

theorem blank_of_trim (blank : ∀ c ∈ Text.trim text, isBlank c = true) :
    ∀ c ∈ text, isBlank c = true := by
  obtain ⟨lead, trail, whole, blank', blank''⟩ := Text.exists_trim text
  rw [whole]
  exact List.forall_mem_append.mpr ⟨blank', List.forall_mem_append.mpr ⟨blank, blank''⟩⟩

/-- Prose is what its span covers without the blanks around it. -/
theorem prose_of_entry {prose : Prose} (run : entry plain before = .ok (.prose prose) after) :
    ∃ span, (Entry.prose prose).span? = some span ∧
      prose.text = Text.trim (span.textIn before.tokens) := by
  rcases entry_eq_ok run with ⟨marked, run⟩ | ⟨-, run⟩
  · obtain ⟨name, start, content, span, -, -, same⟩ := eq_of_tag plain_onlyVerbatim run
    cases same
  · obtain ⟨-, span, -, same⟩ := prose_eq_ok run
    cases same
    exact ⟨span, rfl, rfl⟩

/-- Blank prose takes blank tokens. -/
theorem blank_of_isVoid (whole : before.tokens = scan text)
    (run : entry plain before = .ok item after)
    (void : item.isVoid = true) : ∃ taken, before.rest = taken ++ after.rest ∧ AreBlank taken := by
  obtain ⟨shared, padding, covers⟩ := covers_of_entry plain_onlyVerbatim run
  refine ⟨shared ++ padding, by rw [covers.rest, List.append_assoc], ?_⟩
  refine List.forall_mem_append.mpr ⟨?_, AreBlank.of_arePadding (covers.arePadding whole)⟩
  cases item with
  | tag tag =>
      rw [not_isVoid_of_tag run] at void
      cases void
  | prose prose =>
      have blank : ∀ c ∈ textOf shared, isBlank c = true := by
        obtain ⟨span, span?, written⟩ := prose_of_entry run
        rw [covers.textIn_eq span?] at written
        rw [Entry.isVoid, Text.isAllBlank, List.all_eq_true, written] at void
        exact blank_of_trim void
      exact fun token mem => Or.inr fun c within =>
        blank c (List.mem_flatMap.mpr ⟨token, mem, within⟩)

theorem blank_of_gap {first : Token} {gap rest : List Token} (whole : cursor.tokens = scan text)
    (stands : cursor.rest = first :: (gap ++ rest)) (breaks : first.kind = .lineBreak)
    (soft : ∀ token ∈ gap, token.kind = .padding) : AreBlank (first :: gap) := by
  have within : ∀ token ∈ gap, token ∈ scan text := fun token mem => by
    rw [← whole, Cursor.tokens, stands]
    exact List.mem_append_right _ (List.mem_cons_of_mem _ (List.mem_append_left _ mem))
  exact List.forall_mem_cons.mpr
    ⟨Or.inl breaks, AreBlank.of_arePadding ((arePieces_scan text).arePadding within soft)⟩

/-- Behind the last entry with content only blanks and line breaks stand up to the
closing marker. -/
theorem Trail.exists_blank (trail : Trail plain cursor items) (whole : cursor.tokens = scan text)
    (void : ∀ item ∈ items, item.isVoid = true) :
    ∃ taken rest, cursor.rest = taken ++ rest ∧ AreBlank taken ∧
      ∀ token, rest.head? = some token → token.kind = .closing := by
  induction trail with
  | @closed cursor closes => exact ⟨[], cursor.rest, rfl, nofun, isAtClose_iff.mp closes⟩
  | @ended cursor broken closes =>
      obtain ⟨first, gap, stands, breaks, soft⟩ := exists_advance broken
      exact ⟨first :: gap, cursor.advance.rest, stands, blank_of_gap whole stands breaks soft,
        isAtClose_iff.mp closes⟩
  | @next cursor after item items broken opens run later ih =>
      obtain ⟨first, gap, stands, breaks, soft⟩ := exists_advance broken
      obtain ⟨here, others⟩ := List.forall_mem_cons.mp void
      have same := (length_lt_of_entry plain_onlyVerbatim broken run).2.1
      obtain ⟨taken, split, blank⟩ := blank_of_isVoid (cursor.tokens_advance.trans whole) run here
      obtain ⟨more, rest, split', blank', closes⟩ := ih (same.trans whole) others
      refine ⟨first :: gap ++ (taken ++ more), rest, ?_, ?_, closes⟩
      · rw [stands, split, split']
        simp only [List.cons_append, List.append_assoc]
      · exact List.forall_mem_append.mpr
          ⟨blank_of_gap whole stands breaks soft, List.forall_mem_append.mpr ⟨blank, blank'⟩⟩

/-- The first of some entries is the only one with content, or it has none. -/
theorem sole_cons (sole : (item :: items).filter (fun item => !item.isVoid) = [.tag tag]) :
    (item = .tag tag ∧ ∀ other ∈ items, other.isVoid = true) ∨
      item.isVoid = true ∧ items.filter (fun item => !item.isVoid) = [.tag tag] := by
  cases void : item.isVoid with
  | true =>
      rw [List.filter_cons_of_neg (by rw [void]; decide)] at sole
      exact Or.inr ⟨rfl, sole⟩
  | false =>
      rw [List.filter_cons_of_pos (by rw [void]; rfl)] at sole
      obtain ⟨same, others⟩ := List.cons.inj sole
      refine Or.inl ⟨same, fun other mem => (Bool.not_eq_false _).mp fun proper => ?_⟩
      exact List.filter_eq_nil_iff.mp others other mem (by rw [proper]; rfl)

/-- A tag that was read with nothing but blanks and line breaks behind it up to the
closing marker. -/
structure LastTag (text : Text) (tag : Tag) (before after : Cursor) : Prop where
  whole : before.tokens = scan text
  run : entry plain before = .ok (.tag tag) after
  behind : ∃ taken rest, after.rest = taken ++ rest ∧ AreBlank taken ∧
    ∀ token, rest.head? = some token → token.kind = .closing

theorem LastTag.of_trail (whole : before.tokens = scan text)
    (run : entry plain before = .ok (.tag tag) after)
    (later : Trail plain after items) (void : ∀ item ∈ items, item.isVoid = true) :
    LastTag text tag before after := by
  obtain ⟨span, fills⟩ := fills_of_entry plain_onlyVerbatim run
  exact ⟨whole, run, later.exists_blank (fills.crosses.tokens.trans whole) void⟩

/-- In front of the only entry with content stand blanks and line breaks. -/
theorem Trail.exists_lastTag (trail : Trail plain cursor items) (whole : cursor.tokens = scan text)
    (sole : items.filter (fun item => !item.isVoid) = [.tag tag]) :
    ∃ lead before after, cursor.rest = lead ++ before.rest ∧ AreBlank lead ∧
      (∃ token ∈ lead, token.kind = .lineBreak) ∧
      LastTag text tag before after := by
  induction trail with
  | closed => cases sole
  | ended => cases sole
  | @next cursor after item items broken opens run later ih =>
      obtain ⟨first, gap, stands, breaks, soft⟩ := exists_advance broken
      have blank := blank_of_gap whole stands breaks soft
      have whole' := cursor.tokens_advance.trans whole
      rcases sole_cons sole with ⟨rfl, void⟩ | ⟨void, sole'⟩
      · have found := LastTag.of_trail whole' run later void
        exact ⟨first :: gap, cursor.advance, after, stands, blank,
          ⟨first, List.mem_cons_self, breaks⟩, found⟩
      · have same := (length_lt_of_entry plain_onlyVerbatim broken run).2.1
        obtain ⟨taken, split, blank'⟩ := blank_of_isVoid whole' run void
        obtain ⟨lead, before, last, split', blank'', -, found⟩ := ih (same.trans whole) sole'
        refine ⟨first :: gap ++ (taken ++ lead), before, last, ?_, ?_,
          ⟨first, List.mem_cons_self, breaks⟩, found⟩
        · rw [stands, split, split']
          simp only [List.cons_append, List.append_assoc]
        · exact List.forall_mem_append.mpr ⟨blank, List.forall_mem_append.mpr ⟨blank', blank''⟩⟩

/-- The first entry with content stands where entries may begin, or behind blanks
and a line break. -/
theorem Heads.exists_lastTag (heads : Heads plain (cursor.accept .lineBreak) items)
    (whole : cursor.tokens = scan text)
    (sole : items.filter (fun item => !item.isVoid) = [.tag tag]) :
    ∃ lead before after, cursor.rest = lead ++ before.rest ∧ AreBlank lead ∧
      (lead = [] ∨ ∃ token ∈ lead, token.kind = .lineBreak) ∧ LastTag text tag before after := by
  cases broken : cursor.isAt .lineBreak with
  | true =>
      rw [accept_of_isAt broken] at heads
      obtain ⟨lead, before, after, split, blank, breaks, found⟩ :=
        (heads.trail broken).exists_lastTag whole sole
      exact ⟨lead, before, after, split, blank, Or.inr breaks, found⟩
  | false =>
      rw [accept_of_not_isAt broken] at heads
      cases heads with
      | closed closes => cases sole
      | @first after item items opens run later =>
          rcases sole_cons sole with ⟨rfl, void⟩ | ⟨void, sole'⟩
          · exact ⟨[], cursor, after, rfl, nofun, Or.inl rfl, .of_trail whole run later void⟩
          · obtain ⟨span, fills⟩ := fills_of_entry plain_onlyVerbatim run
            obtain ⟨taken, split, blank⟩ := blank_of_isVoid whole run void
            obtain ⟨lead, before, last, split', blank', ⟨token, mem, breaks⟩, found⟩ :=
              later.exists_lastTag (fills.crosses.tokens.trans whole) sole'
            refine ⟨taken ++ lead, before, last, ?_, List.forall_mem_append.mpr ⟨blank, blank'⟩,
              Or.inr ⟨token, List.mem_append_right _ mem, breaks⟩, found⟩
            rw [split, split', List.append_assoc]

/-! ## The markers around it -/

theorem ne_closing_of_blank {tokens : List Token} (pieces : ∀ token ∈ tokens, token ∈ scan text)
    (blank : AreBlank tokens) :
    ∀ token ∈ tokens, token.kind ≠ .closing := by
  intro token mem closes
  have piece := isPiece_of_mem_scan (pieces token mem) (by rw [closes]; decide)
  rcases blank token mem with breaks | blank
  · cases closes.symm.trans breaks
  · rw [piece.text_of_closing closes] at blank
    cases blank '*' List.mem_cons_self

/-- A closing marker stands behind tokens without one, where nothing else may follow them. -/
theorem exists_cons_of_closed {front rest : List Token}
    (closed : ∃ token ∈ front ++ rest, token.kind = .closing)
    (unclosed : ∀ token ∈ front, token.kind ≠ .closing)
    (closes : ∀ token, rest.head? = some token → token.kind = .closing) :
    ∃ closing behind, rest = closing :: behind ∧ closing.kind = .closing := by
  cases rest with
  | cons closing behind => exact ⟨closing, behind, rfl, closes closing rfl⟩
  | nil =>
      obtain ⟨token, mem, kind⟩ := closed
      rw [List.append_nil] at mem
      exact absurd kind (unclosed token mem)

/-- Only padding stands in front of the opening marker, and padding behind it. -/
theorem exists_opening (opens : (ofTokens (scan text)).kind? = some .opening) :
    ∃ pads opener gap, scan text = pads ++ opener :: (gap ++ (ofTokens (scan text)).advance.rest) ∧
      (∀ token ∈ pads, token.kind = .padding) ∧ opener.kind = .opening ∧
      ∀ token ∈ gap, token.kind = .padding := by
  obtain ⟨opener, gap, stands, kind, soft⟩ := exists_advance (beq_iff_eq.mpr opens)
  refine ⟨(scan text).takeWhile fun token => token.kind == .padding, opener, gap, ?_,
    fun token mem => ?_, kind, soft⟩
  · rw [← stands]
    exact List.takeWhile_append_dropWhile.symm
  · exact beq_iff_eq.mp
      (List.mem_takeWhile_imp (p := fun token : Token => token.kind == .padding) mem)

/-- Around the only entry with content stand blanks and line breaks, up to the
markers of the comment. -/
theorem exists_sole_of_read {document : Document} (run : plain.read text = .ok document)
    (closed : ∃ token ∈ document.tokens, token.kind = .closing)
    (sole : document.comment.entries.filter (fun item => !item.isVoid) = [.tag tag]) :
    ∃ pads opener lead before after trail closing rest, scan text =
      pads ++ opener :: (lead ++ before.rest) ∧
      (∀ token ∈ pads, token.kind = .padding) ∧ opener.kind = .opening ∧ AreBlank lead ∧
        ((∀ token ∈ lead, token.kind = .padding) ∨ ∃ token ∈ lead, token.kind = .lineBreak) ∧
        before.tokens = scan text ∧
          entry plain before = .ok (.tag tag) after ∧ after.rest = trail ++ closing :: rest ∧
          AreBlank trail ∧
            (∀ token ∈ trail, token.kind ≠ .closing) ∧ closing.kind = .closing := by
  have heads := heads_of_read plain_onlyVerbatim run
  obtain ⟨opens, items, last, -, rfl⟩ := read_eq_ok run
  obtain ⟨pads, opener, gap, split, soft, opening, soft'⟩ := exists_opening opens
  have whole : (ofTokens (scan text)).advance.tokens = scan text := by
    rw [tokens_advance, ofTokens, tokens_placed]
  obtain ⟨lead, before, after, split', blank, broken,
      ⟨same, ran, taken, rest, stands, blank', closes⟩⟩ :=
    Heads.exists_lastTag heads whole sole
  obtain ⟨shared, padding, covers⟩ := covers_of_entry plain_onlyVerbatim ran
  have order : scan text =
      pads ++ opener :: (gap ++ (lead ++ (shared ++ (padding ++ taken)))) ++ rest := by
    rw [split, split', covers.rest, stands]
    simp only [List.append_assoc, List.cons_append]
  have gap? : ∀ token ∈ gap, token ∈ scan text := fun token mem => by simp [order, mem]
  have lead? : ∀ token ∈ lead, token ∈ scan text := fun token mem => by simp [order, mem]
  have taken? : ∀ token ∈ taken, token ∈ scan text := fun token mem => by simp [order, mem]
  -- The last entry ends at a closing marker or at the end of the text, and all in front of that
  -- place holds no such marker.
  have unclosed := ne_closing_of_blank taken? blank'
  have front : ∀ token ∈ pads ++ opener :: (gap ++ (lead ++ (shared ++ (padding ++ taken)))),
      token.kind ≠ .closing := by
    simp only [List.forall_mem_append, List.forall_mem_cons]
    exact ⟨unclosed_of_padding soft, by rw [opening]; decide, unclosed_of_padding soft',
      ne_closing_of_blank lead? blank,
      covers.unclosed, unclosed_of_padding covers.soft, unclosed⟩
  have held : ∃ token ∈ scan text, token.kind = .closing := closed
  rw [order] at held
  obtain ⟨closing, behind, rfl, closing?⟩ := exists_cons_of_closed held front closes
  have padded : ArePadding gap := (arePieces_scan text).arePadding gap? soft'
  have blank'' : AreBlank (gap ++ lead) :=
    List.forall_mem_append.mpr ⟨AreBlank.of_arePadding padded, blank⟩
  refine ⟨pads, opener, gap ++ lead, before, after, taken, closing, behind, ?_, soft, opening,
    blank'', ?_, same, ran,
    stands, blank', unclosed, closing?⟩
  · rw [split, split', List.append_assoc]
  · rcases broken with rfl | ⟨token, mem, breaks⟩
    · exact Or.inl (by rwa [List.append_nil])
    · exact Or.inr ⟨token, List.mem_append_right _ mem, breaks⟩

end Dialect

end DocComment
