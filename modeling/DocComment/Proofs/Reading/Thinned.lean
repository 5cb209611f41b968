import DocComment.Proofs.Reading.LineByLine
import DocComment.Proofs.Reading.TagTexts
import DocComment.Proofs.Rendering.Callable

/-!
# Comments of which entries are gone

Where entries are left out, each with the line feed in front of it, padding may stay
behind and be put at the end of another line.  The text that is left has the tags of the
entries that are left (`namesIn_of_thinned`): whatever line comes to stand behind
another one, parentheses stay closed and descriptions end where they did.
-/

namespace DocComment

open Token

namespace Dialect

open Read Cursor Payload.Grammar

variable {dialect : Dialect} {p : Entry → Bool} {here cursor after last : Cursor} {item : Entry}
  {kept : List Entry}
  {text body final : Text} {names : List Text} {gap block : List Token}

/-- A text begins with a line feed, perhaps behind padding. -/
def BreaksFirst (text : Text) : Prop :=
  ∃ padding feed rest, text = padding ++ (feed ++ rest) ∧ (∀ c ∈ padding, isPadding c = true) ∧ IsFeed feed

/-- No carriage return stands in front of the one of a line feed. -/
def OneReturn (text : Text) : Prop :=
  ¬ ['\r', '\r', '\n'] <:+: text

theorem BreaksFirst.padded {padding : Text} (pads : ∀ c ∈ padding, isPadding c = true)
    (breaks : BreaksFirst text) :
    BreaksFirst (padding ++ text) := by
  obtain ⟨padding', feed, rest, rfl, pads', isFeed⟩ := breaks
  exact ⟨padding ++ padding', feed, rest, (List.append_assoc _ _ _).symm,
    List.forall_mem_append.mpr ⟨pads, pads'⟩,
    isFeed⟩

theorem breaksFirst_of_lineBreak {first : Token} (piece : first.IsPiece)
    (kind : first.kind = .lineBreak) (rest : Text) :
    BreaksFirst (first.text ++ rest) := by
  obtain ⟨carriage, indentation, star, whole, either, -⟩ := piece.text_of_lineBreak kind
  refine ⟨[], carriage ++ ['\n'], indentation ++ star ++ rest, ?_, List.forall_mem_nil _, ?_⟩
  · rw [whole]
    simp only [List.append_assoc, List.cons_append, List.nil_append]
  · rcases either with rfl | rfl
    · exact .inl rfl
    · exact .inr rfl

theorem lines_of_padding (soft : ∀ token ∈ gap, token.kind = .padding) : lines gap = [gap] :=
  lines_of_unbroken fun token mem => by
    rw [soft token mem]
    decide

/-- Padding in front of a line feed, and the line feed itself, do not matter. -/
theorem namesIn_padded_feed {padding feed : Text} (pads : ∀ c ∈ padding, isPadding c = true)
    (isFeed : IsFeed feed) (rest : Text) :
    namesIn dialect 0 (padding ++ (feed ++ rest)) =
      namesIn dialect 0 (rest.drop (decorationLength rest)) := by
  obtain ⟨soft, taken, whole, all⟩ := scan_padded_feed isFeed pads rest
  rw [namesIn_of_lines whole, if_pos (unclosed_of_padding all), lines_of_padding all]
  exact tagNames_of_padding all _

theorem namesIn_padded {padding : Text} (pads : ∀ c ∈ padding, isPadding c = true)
    (breaks : BreaksFirst text) :
    namesIn dialect 0 (padding ++ text) = namesIn dialect 0 text := by
  obtain ⟨padding', feed, rest, rfl, pads', isFeed⟩ := breaks
  rw [← List.append_assoc, namesIn_padded_feed (List.forall_mem_append.mpr ⟨pads, pads'⟩) isFeed,
    namesIn_padded_feed pads' isFeed]

theorem scan_textOf_rest (tokens : cursor.tokens = scan text) :
    scan (textOf cursor.rest) = cursor.rest := by
  rw [cursor.rest_eq_drop, tokens, scan_textOf_drop]

/-- An entry in front of another text has its name and the names there. -/
theorem namesIn_of_entry (verbatim : dialect.OnlyVerbatim) (returns : OneReturn text)
    (tokens : here.tokens = scan text)
    (firm : here.kind? ≠ some .padding) (run : entry dialect here = .ok item after)
    (broken : after.isAt .lineBreak = true) (soft : ∀ token ∈ gap, token.kind = .padding)
    {lead : List Token}
    (leads : lead = gap ∨ ∃ first, first.kind = .lineBreak ∧ lead = first :: gap)
    (split : here.rest = block ++ after.rest) {place : Nat}
    (stands : (scan text).drop place = lead ++ (block ++ after.rest)) (breaks : BreaksFirst final) :
    namesIn dialect 0 (textOf (lead ++ block) ++ final) =
      (item.tag?.map Tag.name).toList ++ namesIn dialect 0 final := by
  obtain ⟨padding, feed', rest', rfl, pads, isFeed'⟩ := breaks
  obtain ⟨_, fills⟩ := fills_of_entry verbatim run
  obtain ⟨shared, trailing, covers⟩ := covers_of_entry verbatim run
  have parts : block = shared ++ trailing := by
    have both := covers.rest
    rw [split, ← List.append_assoc] at both
    exact List.append_cancel_right both
  have unclosed : ∀ token ∈ lead ++ block, token.kind ≠ .closing := by
    rw [parts]
    refine List.forall_mem_append.mpr
      ⟨?_, List.forall_mem_append.mpr ⟨covers.unclosed, unclosed_of_padding covers.soft⟩⟩
    rcases leads with rfl | ⟨first, kind, rfl⟩
    · exact unclosed_of_padding soft
    · refine List.forall_mem_cons.mpr ⟨?_, unclosed_of_padding soft⟩
      rw [kind]
      decide
  have behind := scan_textOf_rest (fills.crosses.tokens.trans tokens)
  obtain ⟨first, gap', next, kind, -⟩ := exists_advance broken
  obtain ⟨feed, rest, split', isFeed⟩ :
      ∃ feed rest, textOf after.rest = feed ++ rest ∧ IsFeed feed :=
    exists_of_lineBreak (by rw [firstKind?, behind, next, ← kind]; rfl)
  have cut : scan (textOf (lead ++ block) ++ (feed ++ rest)) =
      (lead ++ block) ++ scan (feed ++ rest) := by
    rw [← split', behind, ← textOf_append, List.append_assoc, ← stands, scan_textOf_drop]
  have lone : (textOf (lead ++ block)).getLast? = some '\r' → feed = ['\n'] := by
    intro last
    rcases isFeed with rfl | rfl
    · rfl
    obtain ⟨front, ends⟩ := List.getLast?_eq_some_iff.mp last
    have suffix : textOf ((scan text).drop place) <:+ text := by
      conv_rhs => rw [← textOf_scan text, ← List.take_append_drop place (scan text), textOf_append]
      exact List.suffix_append _ _
    rw [stands, ← List.append_assoc, textOf_append, ends, split'] at suffix
    refine absurd (List.IsInfix.trans ⟨front, rest, ?_⟩ suffix.isInfix) returns
    simp only [List.append_assoc, List.cons_append, List.nil_append]
  have pieces : ArePieces here.tokens := tokens ▸ arePieces_scan text
  have found (others : List (List Token)) : tagNames dialect 0 (lines (gap ++ block) ++ others) =
      (item.tag?.map Tag.name).toList ++ tagNames dialect 0 others :=
    tagNames_of_entry verbatim pieces firm run soft split (.inl ⟨first, by rw [next]; rfl, kind⟩)
  rw [namesIn_of_cut isFeed isFeed' pads cut rfl lone unclosed, namesIn_padded_feed pads isFeed']
  rcases leads with rfl | ⟨first, kind, rfl⟩
  · exact found _
  · rw [List.cons_append, lines_cons_of_lineBreak kind, List.cons_append,
      tagNames_of_padding (List.forall_mem_nil _)]
    exact found _

/-! ## Lines that are left -/

/--
The text of the lines from one line break up to another, of which the entries outside a
class are left out; padding may stay behind.
-/
inductive Thinned (dialect : Dialect) (p : Entry → Bool) (last : Cursor) : Cursor → List Entry → Text → Prop
  | stays : Thinned dialect p last last [] []
  | gone {cursor after : Cursor} {item : Entry} {kept : List Entry} {padding body : Text}
      (broken : cursor.isAt .lineBreak = true) (run : entry dialect cursor.advance = .ok item after) (out : p item = false)
      (pads : ∀ c ∈ padding, isPadding c = true) (later : Thinned dialect p last after kept body) :
      Thinned dialect p last cursor kept (padding ++ body)
  | kept {cursor after : Cursor} {item : Entry} {kept : List Entry} {crossed : List Token} {body : Text}
      (broken : cursor.isAt .lineBreak = true) (run : entry dialect cursor.advance = .ok item after)
      (belongs : p item = true) (split : cursor.rest = crossed ++ after.rest)
      (later : Thinned dialect p last after kept body) : Thinned dialect p last cursor (item :: kept) (textOf crossed ++ body)

theorem Thinned.broken (thinned : Thinned dialect p last cursor kept body)
    (ends : last.isAt .lineBreak = true) :
    cursor.isAt .lineBreak = true := by
  cases thinned with
  | stays => exact ends
  | gone broken => exact broken
  | kept broken => exact broken

/-- Lines that are left begin with a line feed and have the tags of their entries,
and of those behind. -/
theorem Thinned.namesIn_append (verbatim : dialect.OnlyVerbatim) (returns : OneReturn text)
    (ends : last.isAt .lineBreak = true) (breaks : BreaksFirst final)
    (thinned : Thinned dialect p last cursor kept body) (tokens : cursor.tokens = scan text) :
    BreaksFirst (body ++ final) ∧
    namesIn dialect 0 (body ++ final) = namesOf kept ++ namesIn dialect 0 final := by
  induction thinned with
  | stays => exact ⟨breaks, rfl⟩
  | @gone cursor after item kept padding body broken run out pads later ih =>
      obtain ⟨-, same, -⟩ := length_lt_of_entry verbatim broken run
      obtain ⟨first, names⟩ := ih (same.trans tokens)
      rw [List.append_assoc, namesIn_padded pads first]
      exact ⟨first.padded pads, names⟩
  | @kept cursor after item kept crossed body broken run belongs split later ih =>
      obtain ⟨-, same, -⟩ := length_lt_of_entry verbatim broken run
      obtain ⟨breaks', names⟩ := ih (same.trans tokens)
      obtain ⟨first, gap, rest, kind, soft⟩ := exists_advance broken
      obtain ⟨_, fills⟩ := fills_of_entry verbatim run
      obtain ⟨block, split', -⟩ := fills.crosses.exists_crossed
      have whole : crossed = first :: gap ++ block := by
        rw [rest, split', ← List.append_assoc, ← List.cons_append] at split
        exact (List.append_cancel_right split).symm
      constructor
      · have piece : first.IsPiece := arePieces_scan text first (by
          rw [← tokens, Cursor.tokens, rest]
          exact List.mem_append_right _ List.mem_cons_self) (by rw [kind]; decide)
        rw [whole, List.cons_append, textOf_cons, List.append_assoc, List.append_assoc]
        exact breaksFirst_of_lineBreak piece kind _
      · have firm : cursor.advance.kind? ≠ some .padding := kind?_skipPadding_ne _
        have stands : (scan text).drop cursor.index = (first :: gap) ++ (block ++ after.rest) := by
          rw [← tokens, ← cursor.rest_eq_drop, rest, split', List.cons_append]
        rw [List.append_assoc, whole,
          namesIn_of_entry verbatim returns (cursor.tokens_advance.trans tokens) firm run
          (later.broken ends) soft (.inr ⟨first, kind, rfl⟩) split' stands breaks', names,
          namesOf_cons, List.append_assoc]

/-- A word does not reach over the end of its line to a parenthesis. -/
theorem not_hasPaddedCallable_of_breaks {first second : Text}
    (clean : ¬ Cleanup.HasPaddedCallable first)
    (breaks : BreaksFirst second) (clean' : ¬ Cleanup.HasPaddedCallable second) :
    ¬ Cleanup.HasPaddedCallable (first ++ second) := by
  obtain ⟨padding, feed, rest, rfl, pads, isFeed⟩ := breaks
  rw [← List.append_assoc]
  refine Cleanup.not_hasPaddedCallable_append ?_ (Cleanup.not_hasPaddedCallable_padded pads clean)
    fun padded => clean' (padded.of_isInfix (List.suffix_append _ _).isInfix)
  rcases isFeed with rfl | rfl <;> rintro c ⟨⟩ <;> decide

theorem textOf_rest_isSuffix (tokens : cursor.tokens = scan text) : textOf cursor.rest <:+ text :=
  ⟨textOf cursor.passed.reverse, by
    rw [← textOf_append, ← textOf_scan text, ← tokens, Cursor.tokens]⟩

theorem textOf_isInfix {crossed : List Token} (tokens : cursor.tokens = scan text)
    (split : cursor.rest = crossed ++ after.rest) :
    textOf crossed <:+: text := by
  refine List.IsInfix.trans ?_ (textOf_rest_isSuffix tokens).isInfix
  rw [split, textOf_append]
  exact (List.prefix_append _ _).isInfix

/-- No word comes to stand next to a parenthesis in the lines that are left. -/
theorem Thinned.not_hasPaddedCallable (verbatim : dialect.OnlyVerbatim) (returns : OneReturn text)
    (ends : last.isAt .lineBreak = true) (breaks : BreaksFirst final)
    (clean : ¬ Cleanup.HasPaddedCallable text)
    (clean' : ¬ Cleanup.HasPaddedCallable final) (thinned : Thinned dialect p last cursor kept body)
    (tokens : cursor.tokens = scan text) : ¬ Cleanup.HasPaddedCallable (body ++ final) := by
  induction thinned with
  | stays => exact clean'
  | @gone cursor after item kept padding body broken run out pads later ih =>
      obtain ⟨-, same, -⟩ := length_lt_of_entry verbatim broken run
      rw [List.append_assoc]
      exact Cleanup.not_hasPaddedCallable_front (fun mem => by cases pads _ mem)
        (ih (same.trans tokens))
  | @kept cursor after item kept crossed body broken run belongs split later ih =>
      obtain ⟨-, same, -⟩ := length_lt_of_entry verbatim broken run
      have taken := same.trans tokens
      rw [List.append_assoc]
      exact not_hasPaddedCallable_of_breaks
        (fun padded => clean (padded.of_isInfix (textOf_isInfix tokens split)))
        (later.namesIn_append verbatim returns ends breaks taken).1 (ih taken)

/-! ## Comments that are left -/

/-- The text behind an opening marker, of which the entries outside a class are left out. -/
inductive Pruned (dialect : Dialect) (p : Entry → Bool) (last opening : Cursor) : List Entry → Text → Prop
  | lines {kept : List Entry} {padding body : Text} (pads : ∀ c ∈ padding, isPadding c = true)
      (thinned : Thinned dialect p last opening.advance kept body) : Pruned dialect p last opening kept (padding ++ body)
  | gone {after : Cursor} {item : Entry} {kept : List Entry} {padding body : Text}
      (run : entry dialect opening.advance = .ok item after) (out : p item = false)
      (pads : ∀ c ∈ padding, isPadding c = true) (later : Thinned dialect p last after kept body) :
      Pruned dialect p last opening kept (padding ++ body)
  | kept {after : Cursor} {item : Entry} {kept : List Entry} {crossed : List Token} {body : Text}
      (run : entry dialect opening.advance = .ok item after) (belongs : p item = true)
      (split : opening.step.rest = crossed ++ after.rest) (later : Thinned dialect p last after kept body) :
      Pruned dialect p last opening (item :: kept) (textOf crossed ++ body)

/-- What is left behind an opening marker has the tags of the entries that are
left, and of what follows. -/
theorem Pruned.namesIn_append (verbatim : dialect.OnlyVerbatim) (returns : OneReturn text)
    (ends : last.isAt .lineBreak = true) (breaks : BreaksFirst final) {opening : Cursor}
    (opens : opening.isAt .opening = true) (tokens : opening.tokens = scan text)
    (pruned : Pruned dialect p last opening kept body) :
    namesIn dialect 0 (body ++ final) = namesOf kept ++ namesIn dialect 0 final := by
  have advanced := opening.tokens_advance.trans tokens
  cases pruned with
  | lines pads thinned =>
      obtain ⟨first, names⟩ := thinned.namesIn_append verbatim returns ends breaks advanced
      rw [List.append_assoc, namesIn_padded pads first, names]
  | gone run out pads later =>
      obtain ⟨_, fills⟩ := fills_of_entry verbatim run
      obtain ⟨first, names⟩ :=
        later.namesIn_append verbatim returns ends breaks (fills.crosses.tokens.trans advanced)
      rw [List.append_assoc, namesIn_padded pads first, names]
  | @kept after item kept crossed body run belongs split later =>
      obtain ⟨_, fills⟩ := fills_of_entry verbatim run
      obtain ⟨first, names⟩ :=
        later.namesIn_append verbatim returns ends breaks (fills.crosses.tokens.trans advanced)
      obtain ⟨mark, gap, rest, -, soft⟩ := exists_advance opens
      obtain ⟨block, split', -⟩ := fills.crosses.exists_crossed
      rw [rest_step rest, split', ← List.append_assoc] at split
      have whole := (List.append_cancel_right split).symm
      have stepped : (scan text).drop opening.step.index = gap ++ (block ++ after.rest) := by
        rw [← tokens, ← opening.tokens_step, ← opening.step.rest_eq_drop, rest_step rest, split']
      have firm : opening.advance.kind? ≠ some .padding := kind?_skipPadding_ne _
      rw [List.append_assoc, whole,
        namesIn_of_entry verbatim returns advanced firm run (later.broken ends) soft (.inl rfl)
        split' stepped first, names, namesOf_cons, List.append_assoc]

theorem Pruned.not_hasPaddedCallable (verbatim : dialect.OnlyVerbatim) (returns : OneReturn text)
    (ends : last.isAt .lineBreak = true) (breaks : BreaksFirst final)
    (clean : ¬ Cleanup.HasPaddedCallable text)
    (clean' : ¬ Cleanup.HasPaddedCallable final) {opening : Cursor}
    (tokens : opening.tokens = scan text) (pruned : Pruned dialect p last opening kept body) :
    ¬ Cleanup.HasPaddedCallable (body ++ final) := by
  have advanced := opening.tokens_advance.trans tokens
  cases pruned with
  | lines pads thinned =>
      rw [List.append_assoc]
      exact Cleanup.not_hasPaddedCallable_front (fun mem => by cases pads _ mem)
        (thinned.not_hasPaddedCallable verbatim returns ends breaks clean clean' advanced)
  | gone run out pads later =>
      obtain ⟨_, fills⟩ := fills_of_entry verbatim run
      rw [List.append_assoc]
      exact Cleanup.not_hasPaddedCallable_front (fun mem => by cases pads _ mem)
        (later.not_hasPaddedCallable verbatim returns ends breaks clean clean'
          (fills.crosses.tokens.trans advanced))
  | kept run belongs split later =>
      obtain ⟨_, fills⟩ := fills_of_entry verbatim run
      have taken := fills.crosses.tokens.trans advanced
      rw [List.append_assoc]
      exact not_hasPaddedCallable_of_breaks
        (fun padded =>
          clean (padded.of_isInfix (textOf_isInfix (opening.tokens_step.trans tokens) split)))
        (later.namesIn_append verbatim returns ends breaks taken).1
        (later.not_hasPaddedCallable verbatim returns ends breaks clean clean' taken)

end Dialect

end DocComment
