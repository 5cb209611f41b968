import DocComment.Proofs.Rendering.InOrder
import DocComment.Proofs.Rendering.Progress

/-!
# No entry is lost, doubled or misplaced

The entries of a comment may be moved, changed and taken out, and new ones may
be put between them.  Laying the comment out writes every entry once and in the
new order, and between the entries what the source has beside its entries
(`woven_of_read`).  The invariant is `Layout.Underway`: every span lies in front of the
place that has been reached, or its entry comes later, or it is left out.
-/

namespace DocComment

open Token

/-- A text in which entries and fillings take turns. -/
structure Woven (document : Document) (text : Text) (fillings : List (List Part))
    (last : List Part) : Prop where
  length : fillings.length = document.comment.entries.length
  /-- Every filling is followed by the rendering of its entry. -/
  text : text =
    (List.zipWith (fun filling entry =>
        Part.textOf document.tokens filling ++ document.rendering entry)
      fillings document.comment.entries).flatten ++ Part.textOf document.tokens last
  /-- No token is used twice, and the tokens keep their order. -/
  ordered : (Part.places (fillings.flatten ++ last)).Pairwise (· < ·)
  within : ∀ place ∈ Part.places (fillings.flatten ++ last), place < document.tokens.length
  /-- No token comes from an entry that was read. -/
  outside : ∀ place ∈ Part.places (fillings.flatten ++ last), ∀ entry ∈ document.asRead.entries,
    ∀ span, entry.span? = some span → span.contains place = false
  /-- Every entry but the first starts on another line. -/
  apart : ∀ filling ∈ fillings.tail, '\n' ∈ Part.textOf document.tokens filling
  /-- The closing marker stands behind the last entry. -/
  closes : ∀ place, (document.tokens.findIdx? fun token => token.kind == .closing) = some place →
    Part.token place ∈ last

namespace Layout

/-- A layout on its way when no two entries share a span. -/
structure Underway (document : Document) (removed spans : List Span) (opening close : Nat)
    (progress : Progress) (later : List Entry) : Prop
    extends Reached document removed spans opening close progress later where
  distinct : (later.filterMap Entry.span?).Nodup
  /-- Behind the opening marker, the place is the end of a span that was passed. -/
  passed : progress.place ≤ opening + 1 ∨
    ∃ span ∈ spans, span.stop = progress.place ∧ span ∉ later.filterMap Entry.span?
  sourced : progress.place = 0 ∨ progress.afterFresh = true ∨
    ∃ span ∈ spans, span.stop = progress.place ∧ span ∉ later.filterMap Entry.span?

variable {document : Document} {removed spans : List Span} {opening close : Nat}
  {progress : Progress} {entry : Entry} {span : Span} {later : List Entry}

/-- One entry in the text: a filling and the rendering. -/
structure Placed (document : Document) (removed spans : List Span) (opening close : Nat)
    (progress : Progress) (entry : Entry) (later : List Entry) (placed : Piece × Progress)
    (filling : List Part) : Prop where
  lead : placed.1.lead = Part.textOf document.tokens filling
  body : placed.1.body = document.rendering entry
  fills : Filling spans progress.place placed.2.place filling
  apart : progress.place ≠ 0 → '\n' ∈ Part.textOf document.tokens filling
  moves : placed.2.place ≠ 0
  underway : Underway document removed spans opening close placed.2 later

theorem newline_mem_linePrefix : '\n' ∈ linePrefix := by decide

section Placing

variable (tiles : Tiles document.tokens opening close spans)
include tiles

/-- An entry without a span starts a line of its own. -/
theorem placed_fresh (fresh : entry.span? = none)
    (underway : Underway document removed spans opening close progress (entry :: later)) :
    ∃ filling, Placed document removed spans opening close progress entry later
      (Layout.place document removed progress entry later) filling := by
  have reached := reached_fresh tiles fresh underway.toReached true true
  obtain ⟨_, distinct, passed, _⟩ := underway
  rw [List.filterMap_cons_none fresh] at distinct passed
  have body : decorate entry.renderFresh = document.rendering entry := by
    rw [Document.rendering, fresh]
  by_cases start : progress.place = 0
  · have placed : Layout.place document removed progress entry later =
        (⟨gap document.tokens removed 0 (opening + 1) ++ linePrefix, document.rendering entry⟩,
          ⟨opening + 1, true, true⟩) := by
      unfold Layout.place placeFresh
      rw [fresh, tiles.openingEnd_eq, body]
      simp only [start, if_true]
    have beyond : ∀ span ∈ spans, opening + 1 ≤ span.start := fun span mem =>
      (tiles.inside span mem).1
    have front : Filling spans 0 (opening + 1)
        ((placesOutside removed 0 (opening + 1)).map .token) := by
      refine Filling.gap (Nat.zero_le _) fun span mem place _ high covered => ?_
      have reached := beyond span mem
      have low := (Span.contains_iff.mp covered).1
      omega
    rw [placed]
    refine ⟨(placesOutside removed 0 (opening + 1)).map .token ++ [.newLine], ?_, rfl, ?_,
      fun moved => absurd start moved, Nat.succ_ne_zero opening, ?_⟩
    · rw [Part.textOf_append, textOf_placesOutside]
      rfl
    · rw [start]
      exact front.append (Filling.newLine spans (Nat.le_refl _))
    · rw [if_pos start] at reached
      exact ⟨reached, distinct, Or.inl (Nat.le_refl _), Or.inr (Or.inl rfl)⟩
  · have placed : Layout.place document removed progress entry later =
        (⟨linePrefix, document.rendering entry⟩, ⟨progress.place, true, true⟩) := by
      unfold Layout.place placeFresh
      rw [fresh, body]
      simp only [start, if_false]
      rfl
    rw [placed]
    rw [if_neg start] at reached
    exact ⟨[.newLine], rfl, rfl, Filling.newLine spans (Nat.le_refl _),
      fun _ => newline_mem_linePrefix, start, reached, distinct, passed, Or.inr (Or.inl rfl)⟩

/-- Behind an entry that was read, the gap in front of the next one has a line break. -/
theorem newline_mem_lead (scanned : ∀ place, kindAt? document.tokens place = some .lineBreak →
      '\n' ∈ textAt document.tokens place) (stands : entry.span? = some span)
    (underway : Underway document removed spans opening close progress (entry :: later))
    (ahead : progress.place ≤ span.start) {before : Span} (among : before ∈ spans)
    (ends : before.stop = progress.place) (passed : before ≠ span) :
    '\n' ∈ gap document.tokens (removed ++
      deferredSpans document.tokens later progress.place span.start)
        progress.place span.start := by
  have mem : span ∈ spans := underway.known span (by simp [stands])
  have earlier : before.start < span.start := by
    have proper := before.start_le_stop
    have further := span.start_le_stop
    rcases Span.precedes_or_precedes tiles.precede among mem passed with precedes | precedes
    · exact precedes.1
    · have low := precedes.1
      omega
  obtain ⟨feed, reach, front, broken, apart⟩ := tiles.exists_break mem among earlier
  have distinct := underway.distinct
  rw [List.filterMap_cons_some stands, List.nodup_cons] at distinct
  refine mem_gap (by omega) front (fun other left => ?_) (scanned feed broken)
  obtain ⟨third, here, again, floor, rfl⟩ := exists_widen_of_left stands underway.toReached left
  exact tiles.not_contains_widen mem here (fun same => distinct.1 (again same).1)
    (Nat.lt_of_lt_of_le front span.start_le_stop) (apart third here) floor

/-- What the source has placed so far goes on behind an entry with a span. -/
theorem underway_sourced (stands : entry.span? = some span)
    (underway : Underway document removed spans opening close progress (entry :: later))
    (edited : Bool) :
    Underway document removed spans opening close ⟨max progress.place span.stop, edited, false⟩
      later := by
  have goesOn := reached_sourced tiles stands underway.toReached edited false
  have mem := underway.known span (by simp [stands])
  have inside := tiles.inside span mem
  have proper := span.start_le_stop
  obtain ⟨_, distinct, passed, _⟩ := underway
  rw [List.filterMap_cons_some stands] at distinct passed
  obtain ⟨fresh, distinct⟩ := List.nodup_cons.mp distinct
  have reached : ∃ other ∈ spans, other.stop = max progress.place span.stop ∧
      other ∉ later.filterMap Entry.span? := by
    rcases Nat.le_total progress.place span.stop with ahead | behind
    · exact ⟨span, mem, (Nat.max_eq_right ahead).symm, fresh⟩
    · rw [Nat.max_eq_left behind]
      rcases passed with front | ⟨other, among, ends, absent⟩
      · exact ⟨span, mem, by omega, fresh⟩
      · exact ⟨other, among, ends, fun comes => absent (List.mem_cons_of_mem _ comes)⟩
  exact ⟨goesOn, distinct, Or.inr reached, Or.inr (Or.inr reached)⟩

section Reading

variable (scanned : ∀ place, kindAt? document.tokens place = some .lineBreak →
    '\n' ∈ textAt document.tokens place)
  (spans? : document.asRead.entries.map Entry.span? = spans.map some)
include scanned spans?

/-- An entry with a span is led up to by a gap or starts a line of its own. -/
theorem placed_sourced (stands : entry.span? = some span)
    (underway : Underway document removed spans opening close progress (entry :: later)) :
    ∃ filling, Placed document removed spans opening close progress entry later
      (Layout.place document removed progress entry later) filling := by
  have body : (placeSourced document removed progress entry span later).1.body =
      document.rendering entry := body_of_placeSourced spans? tiles.precede stands
  have moves : max progress.place span.stop ≠ 0 := by
    have mem := underway.known span (by simp [stands])
    have inside := (tiles.inside span mem).1
    have proper := span.start_le_stop
    omega
  have goesOn := underway_sourced tiles stands underway
    (progress.edited || span.start < progress.place || !isUntouched document.asRead entry span)
  have onNewLine : Filling spans progress.place (max progress.place span.stop) [.newLine] :=
    Filling.newLine spans (Nat.le_max_left _ _)
  have lead : ∃ filling, leadOf document removed progress span later =
        Part.textOf document.tokens filling ∧
      Filling spans progress.place (max progress.place span.stop) filling ∧
        (progress.place ≠ 0 → '\n' ∈ Part.textOf document.tokens filling) := by
    unfold leadOf
    split
    next => exact ⟨[.newLine], rfl, onNewLine, fun _ => newline_mem_linePrefix⟩
    next ahead =>
      rw [Nat.not_lt] at ahead
      have proper := span.start_le_stop
      have filling := filling_of_gap tiles stands underway.toReached (Nat.le_refl _) ahead
      dsimp only
      split
      next => exact ⟨[.newLine], rfl, onNewLine, fun _ => newline_mem_linePrefix⟩
      next kept =>
        refine ⟨_, (textOf_placesOutside _ _ _ _).symm, filling.mono (Nat.le_refl _) (by omega),
          fun moved => ?_⟩
        rw [textOf_placesOutside]
        rcases underway.sourced with start | fresh | ⟨before, among, ends, absent⟩
        · exact absurd start moved
        · rw [fresh, Bool.true_and, Bool.not_eq_true', Bool.not_eq_false,
            List.contains_iff_mem] at kept
          exact kept
        · apply newline_mem_lead tiles scanned stands underway ahead among ends
          rintro rfl
          exact absent (by simp [stands])
  obtain ⟨filling, led, fills, apart⟩ := lead
  refine ⟨filling, ?_⟩
  unfold Layout.place
  rw [stands]
  exact ⟨led, body, fills, apart, moves, goesOn⟩

theorem placed_of_underway
    (underway : Underway document removed spans opening close progress (entry :: later)) :
    ∃ filling, Placed document removed spans opening close progress entry later
      (Layout.place document removed progress entry later) filling := by
  cases stands : entry.span? with
  | none => exact placed_fresh tiles stands underway
  | some span => exact placed_sourced tiles scanned spans? stands underway

/-- Placing all entries keeps the invariant and writes one filling and one rendering for each. -/
theorem fillings_of_placeAll
    (underway : Underway document removed spans opening close progress later) :
    ∃ fillings : List (List Part), fillings.length = later.length ∧
      textOf (placeAll document removed progress later).1 =
        (List.zipWith (fun filling entry =>
          Part.textOf document.tokens filling ++ document.rendering entry) fillings later).flatten ∧
      Filling spans progress.place (placeAll document removed progress later).2.place
        fillings.flatten ∧
      (progress.place ≠ 0 → ∀ filling ∈ fillings, '\n' ∈ Part.textOf document.tokens filling) ∧
      (∀ filling ∈ fillings.tail, '\n' ∈ Part.textOf document.tokens filling) ∧
      Underway document removed spans opening close (placeAll document removed progress later).2
        [] := by
  induction later generalizing progress with
  | nil => exact ⟨[], rfl, rfl, Filling.nil spans _, by simp, by simp, underway⟩
  | cons entry later ih =>
      obtain ⟨filling, placed⟩ := placed_of_underway tiles scanned spans? underway
      obtain ⟨fillings, length, text, fills, apart, _, done⟩ := ih placed.underway
      refine ⟨filling :: fillings, by simp [length], ?_, ?_, ?_, ?_, done⟩
      · rw [List.zipWith_cons_cons, List.flatten_cons, ← text, ← placed.lead, ← placed.body]
        rfl
      · exact placed.fills.append fills
      · intro moved other mem
        rcases List.mem_cons.mp mem with rfl | mem
        · exact placed.apart moved
        · exact apart placed.moves other mem
      · exact apart placed.moves

end Reading

/-- The closing marker is in the rest of the source. -/
theorem closing_mem_tail (underway : Underway document removed spans opening close progress [])
    {place : Nat}
    (found : (document.tokens.findIdx? fun token => token.kind == .closing) = some place) :
    place ∈ placesOutside removed (tailStart document.tokens progress) document.tokens.length := by
  rw [List.findIdx?_eq_some_iff_getElem] at found
  obtain ⟨within, closing, first⟩ := found
  have stands : kindAt? document.tokens place = some .closing :=
    (kindAt?_of_lt within).trans (congrArg some (beq_iff_eq.mp closing))
  have behind : close ≤ place := by
    rcases Nat.lt_or_ge place close with front | behind
    · exact absurd stands (tiles.unclosed place front)
    · exact behind
  have start := (tailStart_le tiles underway.toReached).2
  exact mem_placesOutside.mpr ⟨⟨Nat.le_trans start behind, within⟩,
    not_contains_close tiles underway.toReached behind⟩

end Placing

end Layout

/-! ## Whole documents -/

/-- Laying out a comment whose spans tile its source writes each entry once. -/
theorem Layout.exists_woven (document : Document) {spans : List Span} {opening close : Nat}
    (tiles : Tiles document.tokens opening close spans)
    (scanned : ∀ place, kindAt? document.tokens place = some .lineBreak →
      '\n' ∈ textAt document.tokens place)
    (spans? : document.asRead.entries.map Entry.span? = spans.map some)
    (distinct : (document.comment.entries.filterMap Entry.span?).Nodup)
    (known : ∀ span ∈ document.comment.entries.filterMap Entry.span?, span ∈ spans) :
    ∃ fillings last,
      Woven document (document.laidOut (leftOut document spans)).1 fillings last := by
  have underway : Layout.Underway document (leftOut document spans) spans opening close
      (start (leftOut document spans)) document.comment.entries :=
    ⟨reached_start document opening close tiles.precede known, distinct, Or.inl (Nat.zero_le _),
      Or.inl rfl⟩
  obtain ⟨fillings, length, written, fills, _, apart, done⟩ :=
    fillings_of_placeAll tiles scanned spans? underway
  have start := tailStart_le tiles done.toReached
  have rest := (filling_of_rest tiles done.toReached start.1
    (Nat.le_trans start.2 tiles.close_le)).mono start.1 (Nat.le_refl _)
  have whole := fills.append rest
  refine ⟨fillings, _, length, ?_, whole.ordered, ?_, ?_, apart, ?_⟩
  · rw [textOf_placesOutside, ← written]
    rfl
  · exact fun place mem => (whole.between place mem).2
  · intro place mem entry read span stands
    apply whole.outside place mem span
    rw [← filterMap_span? spans?]
    exact List.mem_filterMap.mpr ⟨entry, read, stands⟩
  · intro place found
    exact List.mem_map.mpr ⟨place, closing_mem_tail tiles done found, rfl⟩

/-- However a comment was edited, each of its entries is written once, in its order and apart. -/
theorem woven_of_read {dialect : Dialect} {text : Text} {document : Document}
    (verbatim : dialect.OnlyVerbatim) (run : dialect.read text = .ok document) {comment : Comment}
    (distinct : (comment.entries.filterMap Entry.span?).Nodup)
    (known : ∀ span ∈ comment.entries.filterMap Entry.span?,
      span ∈ document.asRead.entries.filterMap Entry.span?)
    (present : comment.isVoid = false) :
    let edited := document.withComment comment
    ∃ removed fillings last, Layout.removedSpans edited = .ok removed ∧
      edited.render = .ok (Cleanup.finish (edited.laidOut removed).2 comment.onOneLine
        (edited.laidOut removed).1) ∧
      Woven edited (edited.laidOut removed).1 fillings last := by
  intro edited
  obtain ⟨opening, close, spans, spans?, tiles⟩ := Dialect.tiles_of_read verbatim run
  have scanned : ∀ place, kindAt? document.tokens place = some .lineBreak →
      '\n' ∈ textAt document.tokens place := by
    rw [Dialect.tokens_of_read run]
    exact fun place stands => newline_mem_textAt stands
  rw [Layout.filterMap_span? spans?] at known
  have removed : Layout.removedSpans edited = .ok (Layout.leftOut edited spans) :=
    Layout.removedSpans_eq spans? tiles.precede
  obtain ⟨fillings, last, woven⟩ := Layout.exists_woven edited tiles scanned spans? distinct known
  refine ⟨_, fillings, last, removed, Document.render_of_present ?_ ?_ removed, woven⟩
  · exact List.ne_nil_of_length_pos (Nat.zero_lt_of_lt (lt_length_of_kindAt? tiles.opens))
  · change (!document.asRead.isVoid && comment.isVoid) = false
    rw [present, Bool.and_false]

/-- One entry moved to the front, one added, one changed and one taken out. -/
theorem woven_of_read_mixed :
    let dialect : Dialect := ⟨[.verbatim ["@b".toList]], .plain⟩
    let comment := Comment.ofEntries [.prose ⟨['c'], some ⟨9, 1⟩⟩, .freshTag "@n".toList (.plain []),
      .prose ⟨['z'], some ⟨3, 1⟩⟩]
    ∃ document, dialect.read "/**\n * a\n * @b\n * c\n */".toList = .ok document ∧
      (document.withComment comment).render = .ok "/**\n * c\n * @n\n * z\n */".toList ∧
      ∃ text fillings last, Woven (document.withComment comment) text fillings last := by
  intro dialect comment
  have run : dialect.read "/**\n * a\n * @b\n * c\n */".toList =
      .ok (.ofComment (.ofEntries [.prose ⟨['a'], some ⟨3, 1⟩⟩,
        .tag ⟨"@b".toList, .plain [], some ⟨6, 1⟩, none⟩, .prose ⟨['c'], some ⟨9, 1⟩⟩])
        (scan "/**\n * a\n * @b\n * c\n */".toList)) := rfl
  have verbatim : dialect.OnlyVerbatim := fun rule mem =>
    ⟨["@b".toList], List.mem_singleton.mp mem⟩
  have distinct : (comment.entries.filterMap Entry.span?).Nodup := by decide
  obtain ⟨removed, fillings, last, _, _, woven⟩ :=
    woven_of_read verbatim run distinct (by decide) (by decide)
  exact ⟨_, run, by decide +kernel, _, fillings, last, woven⟩

end DocComment
