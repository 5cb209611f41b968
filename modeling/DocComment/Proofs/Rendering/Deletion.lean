import DocComment.Comment.Edit
import DocComment.Proofs.Rendering.LineEnds
import DocComment.Proofs.Rendering.Revision

/-!
# What a deletion does to the entries that stay

Deleting entries cleans up the whole text, also where nothing was deleted.  An
entry that stays loses padding inside it when it has a padded callable, and the
blanks at its end when the closing marker is taken from it.  Every other entry
is kept as it was written (`render_of_deleted`).
-/

namespace DocComment

open Token

namespace Layout

variable {document : Document} {text : Text} {opening close : Nat} {spans omitted : List Span}

/-! ## The ends of what is left out -/

/-- What is left out begins at a line break or behind the opening marker, and ends with an entry. -/
theorem ends_of_leftOut (tiles : Tiles document.tokens opening close spans) {other : Span}
    (left : other ∈ leftOut document spans) :
    (kindAt? document.tokens other.start = some .lineBreak ∨ other.start = opening + 1) ∧
      ∃ span ∈ spans, other.stop = span.stop := by
  obtain ⟨span, listed, floor, isFloor, rfl⟩ := mem_widenAll (tiles.precede.filter _) left
  have mem := List.mem_of_mem_filter listed
  refine ⟨?_, span, mem, widen_stop floor (tiles.start_le mem)⟩
  rcases tiles.broken span mem with ⟨padded, first⟩ | ⟨feed, stands, padded, apart⟩
  · have bottom : floor = 0 := by
      apply isFloor.resolve_right
      rintro ⟨before, among, precedes, _⟩
      exact absurd (first before (List.mem_of_mem_filter among)) (Nat.not_le.mpr precedes.1)
    exact Or.inr (widen_start_of_opening (by omega) padded tiles.opens)
  · rw [widen_start_of_lineBreak (le_of_isFloor isFloor apart) padded stands]
    exact Or.inl stands

theorem beginLines_leftOut (tiles : Tiles document.tokens opening close spans) :
    BeginLines document.tokens (leftOut document spans) := by
  intro other left
  rcases (ends_of_leftOut tiles left).1 with broken | behind
  · exact Or.inl broken
  · exact Or.inr ⟨opening, tiles.opens, behind⟩

/-! ## Around an entry that stays -/

/-- Whether a line break stays between a place and a closing marker behind it. -/
def BreaksBehind (tokens : List Token) (omitted : List Span) (place : Nat) : Prop :=
  ∃ feed close, place ≤ feed ∧ feed < close ∧ kindAt? tokens feed = some .lineBreak ∧
    kindAt? tokens close = some .closing ∧ omitted.any (·.contains feed) = false

/-- Behind the end of a line everything is left out, or what stays begins at a line break. -/
theorem gap_of_ended (tiles : Tiles document.tokens opening close spans)
    (ended : ∀ span ∈ spans, kindAt? document.tokens span.stop = some .lineBreak ∨
      span.stop = close)
    {place : Nat} (le : place ≤ close)
    (ends : kindAt? document.tokens place = some .lineBreak ∨ place = close) :
    gap document.tokens (leftOut document spans) place close = [] ∨
      ∃ feed, place ≤ feed ∧ feed < close ∧ kindAt? document.tokens feed = some .lineBreak ∧
        (leftOut document spans).any (·.contains feed) = false ∧
          gap document.tokens (leftOut document spans) place close =
            textAt document.tokens feed ++
              gap document.tokens (leftOut document spans) (feed + 1) close := by
  induction left : close - place using Nat.strongRecOn generalizing place with
  | ind count ih =>
      rcases Nat.lt_or_eq_of_le le with lt | rfl
      · have broken := ends.resolve_right (Nat.ne_of_lt lt)
        cases covered : (leftOut document spans).any (·.contains place) with
        | false =>
            refine Or.inr ⟨place, Nat.le_refl _, lt, broken, covered, ?_⟩
            rw [gap_step _ _ lt, covered]
            rfl
        | true =>
            obtain ⟨other, among, holds⟩ := List.any_eq_true.mp covered
            obtain ⟨low, high⟩ := Span.contains_iff.mp holds
            obtain ⟨_, span, mem, same⟩ := ends_of_leftOut tiles among
            have inside := (tiles.inside span mem).2
            have skipped : gap document.tokens (leftOut document spans) place close =
                gap document.tokens (leftOut document spans) other.stop close := by
              rw [← gap_append _ _ (Nat.le_of_lt high) (by omega),
                gap_of_covered _ among low (Nat.le_refl _), List.nil_append]
            rw [skipped]
            rcases ih (close - other.stop) (by omega) (by omega) (same ▸ ended span mem) rfl with
              none | ⟨feed, behind, first⟩
            · exact Or.inl none
            · exact Or.inr ⟨feed, by omega, first⟩
      · exact Or.inl (gap_self _ _ _)

/-- What precedes a token that ends in a divider and padding, and padding behind it, is divided. -/
theorem exists_divider_of_mark {mark stop : Nat} {token : Token}
    (found : (scan text)[mark]? = some token) (clear : omitted.any (·.contains mark) = false)
    (padded : Padded (scan text) (mark + 1) stop)
    (divided : ∃ front c padding, token.text = front ++ c :: padding ∧ Cleanup.divides c = true ∧
      ∀ d ∈ padding, isPadding d = true) :
    ∃ front c padding, gap (scan text) omitted 0 stop = front ++ c :: padding ∧
      Cleanup.divides c = true ∧ ∀ d ∈ padding, isPadding d = true := by
  obtain ⟨front, c, padding, whole, divides, all⟩ := divided
  have le := padded.start_le
  refine ⟨gap (scan text) omitted 0 mark ++ front, c,
    padding ++ gap (scan text) omitted (mark + 1) stop, ?_, divides, fun d mem => ?_⟩
  · have step := gap_step (scan text) omitted (Nat.lt_of_succ_le le)
    rw [clear, if_neg Bool.false_ne_true, textAt_of_getElem? found, whole] at step
    rw [← gap_append _ _ (Nat.zero_le mark) (by omega), step]
    simp
  · rcases List.mem_append.mp mem with inside | behind
    · exact all d inside
    · exact isPadding_of_mem_gap padded d behind

/-- In front of an entry that stays stands its line break, or the opening marker, and padding. -/
theorem exists_divider (tiles : Tiles document.tokens opening close spans)
    (tokens : document.tokens = scan text) {span : Span} (mem : span ∈ spans)
    (carried : span ∈ document.comment.entries.filterMap Entry.span?) :
    ∃ front c padding,
      gap document.tokens (leftOut document spans) 0 span.start = front ++ c :: padding ∧
        Cleanup.divides c = true ∧ ∀ d ∈ padding, isPadding d = true := by
  have clear {place : Nat} (front : place < span.start)
      (apart : ∀ other ∈ spans, other.stop ≤ place ∨ span.start ≤ other.start) :
      (leftOut document spans).any (·.contains place) = false := by
    have proper := span.start_le_stop
    rw [List.any_eq_false]
    intro other left
    rw [clear_of_apart tiles mem carried (by omega) apart other left]
    decide
  rcases tiles.broken span mem with ⟨padded, first⟩ | ⟨feed, stands, padded, apart⟩
  · have uncovered := clear padded.start_le fun other among => Or.inr (first other among)
    have opens := tiles.opens
    rw [tokens] at opens padded ⊢
    obtain ⟨token, found, kind, cut⟩ := isPiece_of_kindAt? opens (by decide)
    refine exists_divider_of_mark found uncovered padded
      ⟨['/', '*'], '*', [], ?_, by decide, by simp⟩
    exact cut.text_of_opening kind
  · have uncovered := clear padded.start_le apart
    rw [tokens] at stands padded ⊢
    obtain ⟨token, found, kind, cut⟩ := isPiece_of_kindAt? stands (by decide)
    exact exists_divider_of_mark found uncovered padded (cut.text_of_lineBreak kind).exists_divider

/-- The closing marker and what stands behind it stay. -/
theorem isEnding_gap (tiles : Tiles document.tokens opening close spans)
    (alone : ClosesAlone document.tokens) :
    Cleanup.IsEnding
      (gap document.tokens (leftOut document spans) close document.tokens.length) := by
  refine tiles.isEnding_of_closesAlone alone fun other left => ?_
  obtain ⟨_, span, mem, same⟩ := ends_of_leftOut tiles left
  rw [same]
  exact (tiles.inside span mem).2

/-- The opening marker stays. -/
theorem opens_gap (tiles : Tiles document.tokens opening close spans)
    (tokens : document.tokens = scan text) :
    (gap document.tokens (leftOut document spans) 0 close).Opens := by
  have clear : (leftOut document spans).any (·.contains opening) = false := by
    rw [List.any_eq_false]
    intro other left holds
    have low := (Span.contains_iff.mp holds).1
    rcases (ends_of_leftOut tiles left).1 with broken | behind
    · rcases Nat.lt_or_eq_of_le low with before | same
      · rw [tiles.front.padding _ (Nat.zero_le _) before] at broken
        cases broken
      · rw [same, tiles.opens] at broken
        cases broken
    · omega
  have step := gap_step document.tokens (leftOut document spans) tiles.opening_lt_close
  have front := tiles.front
  have opens := tiles.opens
  rw [tokens] at front opens
  obtain ⟨token, found, kind, cut⟩ := isPiece_of_kindAt? opens (by decide)
  rw [← tokens] at found
  rw [clear, if_neg Bool.false_ne_true, textAt_of_getElem? found, cut.text_of_opening kind] at step
  refine ⟨gap document.tokens (leftOut document spans) 0 opening,
    gap document.tokens (leftOut document spans) (opening + 1) close, fun c mem => ?_, ?_⟩
  · rw [tokens] at mem
    exact isPadding_of_mem_gap front c mem
  · rw [← gap_append _ _ (Nat.zero_le opening) (Nat.le_of_lt tiles.opening_lt_close), step]
    rfl

section Behind

variable (tiles : Tiles document.tokens opening close spans) (tokens : document.tokens = scan text)
  (ended : ∀ span ∈ spans, kindAt? document.tokens span.stop = some .lineBreak ∨ span.stop = close)
  {place : Nat} (le : place ≤ close) (ends : kindAt? document.tokens place = some .lineBreak ∨ place = close)
include tiles ended le ends

include tokens in
/-- What stays behind the end of a line begins with a divider. -/
theorem divides_of_head?_gap {d : Char}
    (first : (gap document.tokens (leftOut document spans) place close).head? = some d) :
    Cleanup.divides d = true := by
  rcases gap_of_ended tiles ended le ends with none | ⟨feed, _, _, stands, _, split⟩
  · rw [none] at first
    cases first
  · rw [split, tokens] at first
    rw [tokens] at stands
    obtain ⟨token, found, kind, cut⟩ := isPiece_of_kindAt? stands (by decide)
    rw [textAt_of_getElem? found] at first
    exact (cut.text_of_lineBreak kind).divides_head _ d first

theorem gap_eq_nil_of_not_breaksBehind (alone : ClosesAlone document.tokens)
    (none : ¬ BreaksBehind document.tokens (leftOut document spans) place) :
    gap document.tokens (leftOut document spans) place close = [] := by
  refine (gap_of_ended tiles ended le ends).resolve_right ?_
  rintro ⟨feed, behind, before, stands, clear, _⟩
  exact none ⟨feed, close, behind, before, stands, tiles.kindAt?_close alone, clear⟩

end Behind

/-- A line break that stays behind a place stays in front of the closing marker. -/
theorem newline_mem_gap (tiles : Tiles document.tokens opening close spans)
    (tokens : document.tokens = scan text) (alone : ClosesAlone document.tokens) {place : Nat}
    (breaks : BreaksBehind document.tokens (leftOut document spans) place) :
    '\n' ∈ gap document.tokens (leftOut document spans) place close := by
  obtain ⟨feed, marker, behind, front, stands, closing, clear⟩ := breaks
  have before : feed < close := by
    rcases Nat.lt_trichotomy marker close with early | same | late
    · exact absurd closing (tiles.unclosed marker early)
    · exact same ▸ front
    · rw [tokens] at tiles alone closing
      exact absurd closing (tiles.not_closing_behind alone late)
  rw [tokens] at stands ⊢
  refine mem_gap behind before (fun other left => ?_) (newline_mem_textAt stands)
  simpa using List.any_eq_false.mp clear other left

/-- An entry that stays is cleaned up apart from what is in front of it and behind it. -/
theorem exists_cleaned (tiles : Tiles document.tokens opening close spans)
    (tokens : document.tokens = scan text) (alone : ClosesAlone document.tokens)
    (trimmed : text.NoTrailingPadding) {span : Span} (mem : span ∈ spans)
    (carried : span ∈ document.comment.entries.filterMap Entry.span?) :
    ∃ front behind ending, Cleanup.IsEnding ending ∧
      Cleanup.tightened (gap document.tokens (leftOut document spans) 0 document.tokens.length) =
        front ++ Cleanup.tightened (span.textIn document.tokens) ++ behind ++ ending ∧
      (BreaksBehind document.tokens (leftOut document spans) span.stop → '\n' ∈ behind) ∧
      (¬ BreaksBehind document.tokens (leftOut document spans) span.stop → behind = []) := by
  obtain ⟨front, c, padding, lead, divides, all⟩ := exists_divider tiles tokens mem carried
  have ends := isEnding_gap tiles alone
  have within := tiles.inside span mem
  have high := tiles.close_le
  have ended : ∀ other ∈ spans,
      kindAt? document.tokens other.stop = some .lineBreak ∨ other.stop = close := by
    intro other among
    rw [tokens] at tiles alone ⊢
    exact tiles.ends_of_noTrailingPadding alone trimmed among
  have slice : gap document.tokens (leftOut document spans) span.start span.stop =
      span.textIn document.tokens :=
    gap_eq_textBetween _ fun place low high =>
      clear_of_leftOut tiles mem carried (Span.contains_iff.mpr ⟨low, high⟩)
  have proper := span.start_le_stop
  have whole : gap document.tokens (leftOut document spans) 0 document.tokens.length =
      front ++ c :: padding ++ span.textIn document.tokens ++
        gap document.tokens (leftOut document spans) span.stop close ++
          gap document.tokens (leftOut document spans) close document.tokens.length := by
    rw [← lead, ← slice, gap_append _ _ (by omega) (by omega),
      gap_append _ _ (by omega) (by omega), gap_append _ _ (by omega) (by omega)]
  refine ⟨Cleanup.tightened front ++ c :: padding,
    Cleanup.tightened (gap document.tokens (leftOut document spans) span.stop close), _, ends,
    ?_, fun breaks => ?_, fun none => ?_⟩
  · rw [whole, Cleanup.tightened_slice ends divides all fun d first =>
      divides_of_head?_gap tiles tokens ended within.2 (ended span mem) first]
  · exact Cleanup.mem_tightened (by decide) (newline_mem_gap tiles tokens alone breaks)
  · rw [gap_eq_nil_of_not_breaksBehind tiles ended within.2 (ended span mem) alone none]
    rfl

end Layout

/-! ## What is cleaned up -/

namespace Document

/-- What becomes of a revision whose lines do not end in padding. -/
def cleaned (document : Document) : Text :=
  Cleanup.closeOnOwnLine (Cleanup.tightened document.revision)

/-- Whether an entry that stays loses the blanks at its end with the line break behind it. -/
structure LosesBlanks (document : Document) (span : Span) : Prop where
  blank : Text.EndsInBlank (span.textIn document.tokens)
  last : ¬ Layout.BreaksBehind document.tokens document.omitted span.stop
  moves : Cleanup.MarkerMoves (Cleanup.tightened document.revision)

/-- The revision of a document that has only lost entries is what remains of its source. -/
theorem revision_eq_gap (document : Document)
    (subset : document.comment.entries ⊆ document.asRead.entries) :
    document.revision =
      Layout.gap document.tokens document.omitted 0 document.tokens.length := by
  have none : document.comment.entries.filterMap document.replacement? = [] := by
    rw [List.filterMap_eq_nil_iff]
    exact fun entry mem => if_pos (subset mem)
  have pass : Layout.revisedFrom document.omitted [] 0 (document.tokens.drop 0) =
      Layout.gap document.tokens document.omitted 0 document.tokens.length ++
        Layout.revisedFrom document.omitted [] document.tokens.length
          (document.tokens.drop document.tokens.length) :=
    Layout.revisedFrom_gap (Nat.zero_le _) (Nat.le_refl _) (by simp)
  rw [List.drop_length] at pass
  rw [revision, none]
  exact pass.trans (List.append_nil _)

section Deleted

variable {document : Document} {text : Text} {opening close : Nat} {spans : List Span}

theorem revision_eq_append (tiles : Tiles document.tokens opening close spans)
    (spans? : document.asRead.entries.map Entry.span? = spans.map some)
    (alone : ClosesAlone document.tokens)
    (subset : document.comment.entries ⊆ document.asRead.entries) :
    ∃ ending, Cleanup.IsEnding ending ∧
      document.revision = Layout.gap document.tokens document.omitted 0 close ++ ending := by
  have ends := Layout.isEnding_gap tiles alone
  rw [Layout.leftOut_eq_omitted tiles spans?] at ends
  refine ⟨_, ends, ?_⟩
  rw [document.revision_eq_gap subset, Layout.gap_append _ _ (Nat.zero_le close) tiles.close_le]

/-- Nothing but the callables and the closing marker is cleaned up. -/
theorem finish_revision (tiles : Tiles document.tokens opening close spans)
    (spans? : document.asRead.entries.map Entry.span? = spans.map some)
    (tokens : document.tokens = scan text) (alone : ClosesAlone document.tokens)
    (trimmed : text.NoTrailingPadding)
    (subset : document.comment.entries ⊆ document.asRead.entries) :
    Cleanup.finish true false document.revision = document.cleaned := by
  have leaves := Layout.leftOut_eq_omitted tiles spans?
  have opens := Layout.opens_gap tiles tokens
  have begins := Layout.beginLines_leftOut tiles
  rw [leaves] at opens begins
  have tidy : document.revision.Tidy := by
    rw [tokens] at begins
    rw [document.revision_eq_gap subset, tokens]
    exact Layout.tidy_gap trimmed begins (Nat.zero_le _)
  obtain ⟨ending, ends, whole⟩ := revision_eq_append tiles spans? alone subset
  rw [whole] at tidy
  rw [cleaned, whole, Cleanup.finish_edited ends opens tidy]

/-- What becomes of an entry that stays. -/
theorem slice_of_cleaned (tiles : Tiles document.tokens opening close spans)
    (spans? : document.asRead.entries.map Entry.span? = spans.map some)
    (tokens : document.tokens = scan text) (alone : ClosesAlone document.tokens)
    (trimmed : text.NoTrailingPadding)
    (subset : document.comment.entries ⊆ document.asRead.entries) {entry : Entry}
    (mem : entry ∈ document.comment.entries) {span : Span} (stands : entry.span? = some span) :
    (Cleanup.HasPaddedCallable (span.textIn document.tokens) →
        ¬ span.textIn document.tokens <:+: document.cleaned) ∧
      (¬ Cleanup.HasPaddedCallable (span.textIn document.tokens) →
        (document.LosesBlanks span → ∃ ending, Cleanup.IsEnding ending ∧
            Text.trimEnd (span.textIn document.tokens) ++ ("\n ".toList ++ ending) <:+
              document.cleaned) ∧
          (¬ document.LosesBlanks span → span.textIn document.tokens <:+: document.cleaned)) := by
  have carried : span ∈ document.comment.entries.filterMap Entry.span? :=
    List.mem_filterMap.mpr ⟨entry, mem, stands⟩
  have listed : span ∈ spans := by
    rw [← Layout.filterMap_span? spans?]
    exact List.mem_filterMap.mpr ⟨entry, subset mem, stands⟩
  obtain ⟨front, behind, ending, ends, whole, broken, none⟩ :=
    Layout.exists_cleaned tiles tokens alone trimmed listed carried
  rw [Layout.leftOut_eq_omitted tiles spans?] at whole broken none
  rw [← document.revision_eq_gap subset] at whole
  constructor
  · intro padded occurs
    obtain ⟨marker, closes, split⟩ := revision_eq_append tiles spans? alone subset
    rw [cleaned, split] at occurs
    exact Cleanup.not_hasPaddedCallable_cleaned closes _ (padded.of_isInfix occurs)
  · intro clean
    rw [Cleanup.tightened_eq_self clean] at whole
    constructor
    · intro loses
      have moves := loses.moves
      rw [none loses.last, List.append_nil] at whole
      rw [whole] at moves
      rw [cleaned, whole]
      exact ⟨ending, ends, Cleanup.suffix_closeOnOwnLine ends moves⟩
    · intro safe
      rw [cleaned, whole]
      apply Cleanup.infix_closeOnOwnLine ends
      by_cases blank : Text.EndsInBlank (span.textIn document.tokens)
      · by_cases breaks : Layout.BreaksBehind document.tokens document.omitted span.stop
        · exact Or.inr (Or.inl (broken breaks))
        · exact Or.inr (Or.inr fun moves => safe ⟨blank, breaks, whole ▸ moves⟩)
      · exact Or.inl blank

end Deleted

end Document

/-! ## Whole documents -/

theorem Revised.of_sublist {before after : List Entry} (part : after.Sublist before) :
    Revised before after := by
  induction part with
  | slnil => exact .nil
  | cons entry _ ih => exact .delete entry ih
  | cons_cons entry _ ih => exact .keep rfl ih

/--
Deleting entries of a comment whose closing marker stands alone and whose lines
do not end in padding.  An entry that stays is lost as it was written when it
has a padded callable.  Otherwise it is kept, except for the blanks at its end
when the line break that stood behind it is gone.
-/
theorem render_of_deleted {dialect : Dialect} {text : Text} {document : Document}
    (verbatim : dialect.OnlyVerbatim) (run : dialect.read text = .ok document)
    (alone : ClosesAlone document.tokens) (trimmed : text.NoTrailingPadding) {kept : List Entry}
    (part : kept.Sublist document.asRead.entries) (proper : kept ≠ document.asRead.entries)
    (present : (document.asRead.withEntries kept).isVoid = false) :
    let edited := document.withComment (document.asRead.withEntries kept)
    edited.render = .ok edited.cleaned ∧
      ∀ entry ∈ kept, ∀ span, entry.span? = some span →
        let slice := span.textIn edited.tokens
        (Cleanup.HasPaddedCallable slice → ¬ slice <:+: edited.cleaned) ∧
          (¬ Cleanup.HasPaddedCallable slice →
            (edited.LosesBlanks span → ∃ ending, Cleanup.IsEnding ending ∧
                Text.trimEnd slice ++ ("\n ".toList ++ ending) <:+ edited.cleaned) ∧
              (¬ edited.LosesBlanks span → slice <:+: edited.cleaned)) := by
  intro edited
  obtain ⟨opening, close, spans, spans?, tiles⟩ := Dialect.tiles_of_read verbatim run
  have source := Dialect.tokens_of_read run
  have tiled : Tiles edited.tokens opening close spans := tiles
  have subset : edited.comment.entries ⊆ edited.asRead.entries := part.subset
  constructor
  · have revised : Revised document.asRead.entries (document.asRead.withEntries kept).entries :=
      Revised.of_sublist part
    have rendered := @Document.render_revision edited _ _ _ tiled spans? revised proper
    have held : edited.comment.isVoid = false := present
    rw [held, Bool.and_false, if_neg Bool.false_ne_true] at rendered
    have finished := Document.finish_revision tiled spans? source alone trimmed subset
    rw [← finished, ← Dialect.onOneLine_of_read run]
    exact rendered
  · exact fun entry mem span stands =>
      Document.slice_of_cleaned tiled spans? source alone trimmed subset mem stands

/-- Deleting the tag in front of a word leaves the word. -/
theorem render_of_deleted_tag :
    ∃ document, Dialect.plain.read "/**\n * @a\n * b\n */".toList = .ok document ∧
      let output := "/**\n * b\n */".toList
      (document.withComment (document.asRead.withEntries (document.asRead.entries.drop 1))).render =
        .ok output ∧ ['b'] <:+: output := by
  refine ⟨_, rfl, ?_⟩
  have verbatim : Dialect.plain.OnlyVerbatim := fun rule mem => absurd mem List.not_mem_nil
  have run : Dialect.plain.read "/**\n * @a\n * b\n */".toList = .ok _ := rfl
  have alone : ClosesAlone (scan "/**\n * @a\n * b\n */".toList) :=
    ⟨(scan "/**\n * @a\n * b\n */".toList).take 7, ⟨.lineBreak, ['\n', ' ']⟩, [], rfl, rfl, by decide,
      by decide⟩
  obtain ⟨rendered, slices⟩ := render_of_deleted verbatim run alone (by decide)
    (List.drop_sublist 1 _) (by decide) (by decide)
  have clean : ¬ Cleanup.HasPaddedCallable ['b'] := by
    rintro ⟨front, padding, back, split, _⟩
    have size := congrArg List.length split
    simp only [List.length_append, List.length_cons, List.length_nil, Cleanup.callableWord] at size
    omega
  refine ⟨rendered, ((slices _ List.mem_cons_self _ rfl).2 clean).2 fun loses => ?_⟩
  obtain ⟨c, last, blank⟩ := loses.blank
  cases last
  cases blank

/-- Deleting a tag takes the padding out of a callable that stays. -/
theorem not_kept_callable :
    ∃ document entry span output,
      Dialect.plain.read "/**\n * @a\n * callable (x)\n */".toList = .ok document ∧
        ClosesAlone document.tokens ∧
        Text.NoTrailingPadding "/**\n * @a\n * callable (x)\n */".toList ∧
        [entry].Sublist document.asRead.entries ∧ [entry] ≠ document.asRead.entries ∧
        (document.asRead.withEntries [entry]).isVoid = false ∧
        (document.withComment (document.asRead.withEntries [entry])).render = .ok output ∧
        entry.span? = some span ∧ ¬ span.textIn document.tokens <:+: output := by
  refine ⟨_, .prose ⟨"callable (x)".toList, some ⟨6, 5⟩⟩, ⟨6, 5⟩,
    "/**\n * callable(x)\n */".toList, rfl, ?_, by decide, ?_, by decide, by decide, rfl, rfl,
    by decide⟩
  · exact ⟨(scan "/**\n * @a\n * callable (x)\n */".toList).take 11,
      ⟨.lineBreak, ['\n', ' ']⟩, [], rfl, rfl, by decide, by decide⟩
  · exact (List.Sublist.refl _).cons _

end DocComment
