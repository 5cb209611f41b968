import DocComment.Proofs.Reading.Coverage
import DocComment.Proofs.Reading.Thinned
import DocComment.Proofs.Rendering.Deletion

/-!
# What is left of a comment

When entries are deleted from a comment, the lines of the others stay, and of every
deleted one the padding behind it: what is laid out is a pruned comment
(`exists_pruned`), up to the line that the closing marker stands on by itself.
-/

namespace DocComment

open Token

/-- The place of the line feed in front of the line that the closing marker stands on by itself. -/
structure Token.Foot (tokens : List Token) (feed : Nat) : Prop where
  broken : kindAt? tokens feed = some .lineBreak
  padded : Padded tokens (feed + 1) (closingPlace tokens)
  closes : kindAt? tokens (closingPlace tokens) = some .closing

/-- The closing marker stands on a line of its own, and no entry goes on up to it. -/
def Document.ClosesApart (document : Document) : Prop :=
  ∃ feed, Foot document.tokens feed ∧
    ∀ span ∈ document.asRead.entries.filterMap Entry.span?, span.stop ≤ feed

namespace Token.Foot

variable {tokens : List Token} {feed : Nat}

/-- No place in front of the foot is at the close. -/
theorem isAtClose_eq_false (foot : Foot tokens feed) {cursor : Cursor}
    (same : cursor.tokens = tokens) (low : cursor.index ≤ feed) : cursor.isAtClose = false := by
  have within := lt_length_of_kindAt? foot.broken
  have before : feed < closingPlace tokens := foot.padded.start_le
  rw [Cursor.isAtClose, Bool.or_eq_false_iff]
  constructor
  · rw [Bool.eq_false_iff]
    intro ended
    have beyond := Cursor.isAtEnd_iff.mp ended
    rw [same] at beyond
    omega
  · rw [Bool.eq_false_iff]
    intro closes
    have stands := Cursor.isAt_iff.mp closes
    obtain ⟨token, found, kind⟩ := kindAt?_eq_some_iff.mp stands
    obtain ⟨inside, rfl⟩ := List.getElem?_eq_some_iff.mp found
    subst same
    have other := List.not_of_lt_findIdx (Nat.lt_of_le_of_lt low before)
    rw [kind] at other
    cases other

/-- Padding in front of a place that is not behind the foot ends in front of the foot. -/
theorem le_of_padded (foot : Foot tokens feed) {start stop : Nat}
    (padded : Padded tokens start stop) (low : start ≤ feed) : stop ≤ feed := by
  by_contra beyond
  have stands := padded.padding feed low (Nat.lt_of_not_le beyond)
  rw [foot.broken] at stands
  cases stands

/-- The foot stands behind the opening marker. -/
theorem opening_lt (foot : Foot tokens feed) {place : Nat} (padded : Padded tokens 0 place)
    (stands : kindAt? tokens place = some .opening) : place < feed := by
  by_contra above
  have far : feed < place := by
    refine Nat.lt_of_le_of_ne (by omega) fun same => ?_
    have broken := foot.broken
    rw [same, stands] at broken
    cases broken
  have soft := padded.padding feed (Nat.zero_le _) far
  rw [foot.broken] at soft
  cases soft

end Token.Foot

/-- The text of the tokens between two cursors. -/
theorem Cursor.textBetween_index {here after : Cursor} {crossed : List Token}
    (tokens : after.tokens = here.tokens) (rest : here.rest = crossed ++ after.rest) :
    textBetween here.tokens here.index after.index = textOf crossed := by
  have lengths := congrArg List.length rest
  have low := here.index_le_length
  have high := after.index_le_length
  rw [List.length_append, length_rest, length_rest, tokens] at lengths
  rw [tokens] at high
  have count : after.index - here.index = crossed.length := by omega
  rw [textBetween_eq, ← here.rest_eq_drop, rest, count, List.take_left]

namespace Layout

open Dialect

variable {dialect : Dialect} {text : Text} {cursor : Cursor} {items : List Entry}
  {spans : List Span} {feed : Nat}
  {p : Entry → Bool} {drop : Span → Bool}

theorem isPadding_of_mem_textBetween {start stop : Nat} (padded : Padded (scan text) start stop) :
    ∀ c ∈ textBetween (scan text) start stop, isPadding c = true := by
  rw [← gap_nil]
  exact isPadding_of_mem_gap padded

section Gap

variable {tokens : List Token} {omitted : List Span} {start stop : Nat}

theorem gap_in_front (tokens : List Token) (front : ∀ other ∈ omitted, stop ≤ other.start) :
    gap tokens omitted start stop = textBetween tokens start stop := by
  refine gap_eq_textBetween tokens fun place _ upper other mem => ?_
  rw [Bool.eq_false_iff]
  intro inside
  have starts := (Span.contains_iff.mp inside).1
  have far := front other mem
  omega

theorem gap_cons_behind (tokens : List Token) {span : Span} (behind : span.stop ≤ start) :
    gap tokens (span :: omitted) start stop = gap tokens omitted start stop := by
  refine gap_congr tokens fun place lower _ => ?_
  have outside : span.contains place = false := by
    rw [Bool.eq_false_iff]
    intro inside
    have upper := (Span.contains_iff.mp inside).2
    omega
  rw [List.any_cons, outside, Bool.false_or]

/-- The tokens up to the first place that is left out are copied. -/
theorem gap_of_kept {here after : Cursor} {crossed : List Token} (same : after.tokens = here.tokens)
    (split : here.rest = crossed ++ after.rest)
    (front : ∀ other ∈ omitted, after.index ≤ other.start) :
    gap here.tokens omitted here.index here.tokens.length =
      Token.textOf crossed ++ gap here.tokens omitted after.index here.tokens.length := by
  have low : here.index ≤ after.index := by
    have lengths := congrArg List.length split
    rw [List.length_append, Cursor.length_rest, Cursor.length_rest, same] at lengths
    have low := here.index_le_length
    have high := after.index_le_length
    rw [same] at high
    omega
  rw [← gap_append here.tokens omitted low (same ▸ after.index_le_length), gap_in_front _ front,
    Cursor.textBetween_index same split]

/-- Of what is left out the padding behind it stays. -/
theorem gap_of_gone {span : Span} {place : Nat} (low : span.start ≤ span.stop)
    (behind : span.stop ≤ place)
    (within : place ≤ tokens.length) (front : ∀ other ∈ omitted, place ≤ other.start) :
    gap tokens (span :: omitted) span.start tokens.length =
      textBetween tokens span.stop place ++ gap tokens omitted place tokens.length := by
  rw [← gap_append _ _ low (Nat.le_trans behind within), ← gap_append _ _ behind within,
    gap_of_covered _ List.mem_cons_self (Nat.le_refl _) (Nat.le_refl _), List.nil_append,
    gap_cons_behind _ (Nat.le_refl _), gap_cons_behind _ behind, gap_in_front _ front]

end Gap

theorem exists_of_map_cons {item : Entry} {span : Span} (stands : item.span? = some span)
    (spans? : (item :: items).map Entry.span? = spans.map some) :
    ∃ more, spans = span :: more ∧ item.span? = some span ∧
      items.map Entry.span? = more.map some := by
  cases spans with
  | nil => cases spans?
  | cons head more =>
      rw [List.map_cons, List.map_cons, stands] at spans?
      obtain ⟨same, others⟩ := List.cons.inj spans?
      exact ⟨more, by rw [Option.some.inj same], stands, others⟩

/-- An entry that is read in front of the foot, and the span of it that is dropped
unless the entry is kept. -/
structure Meets (text : Text) (feed : Nat) (drop : Span → Bool) (p : Entry → Bool) (start after : Cursor) (item : Entry)
    (span : Span) : Prop where
  fills : Fills start after item span
  placed : start.tokens = scan text
  tokens : after.tokens = scan text
  padded : Padded (scan text) span.stop after.index
  reached : after.index ≤ feed
  dropped : drop span = !p item

/-- The first of the spans is that of the entry that is read first. -/
theorem exists_meets (verbatim : dialect.OnlyVerbatim) (foot : Foot (scan text) feed)
    {start after : Cursor} {item : Entry}
    (placed : start.tokens = scan text) (run : entry dialect start = .ok item after)
    (spans? : (item :: items).map Entry.span? = spans.map some)
    (apart : ∀ span ∈ spans, span.stop ≤ feed)
    (agree : ∀ found ∈ item :: items, ∀ span, found.span? = some span → drop span = !p found) :
    ∃ span more, spans = span :: more ∧ Meets text feed drop p start after item span ∧
      items.map Entry.span? = more.map some ∧ ∀ other ∈ more, other.stop ≤ feed := by
  obtain ⟨span, fills⟩ := fills_of_entry verbatim run
  obtain ⟨more, rfl, first, others⟩ := exists_of_map_cons fills.span? spans?
  obtain ⟨stops, apart⟩ := List.forall_mem_cons.mp apart
  have padded := placed ▸ fills.padded
  exact ⟨span, more, rfl,
    ⟨fills, placed, fills.crosses.tokens.trans placed, padded, foot.le_of_padded padded stops,
    agree item List.mem_cons_self span first⟩, others, apart⟩

namespace Meets

variable {start after : Cursor} {item : Entry} {span : Span}

theorem stays (met : Meets text feed drop p start after item span) (belongs : p item = true) :
    ¬ drop span = true := by
  rw [met.dropped, belongs]
  decide

theorem goes (met : Meets text feed drop p start after item span) (out : p item = false) :
    drop span = true := by
  rw [met.dropped, out]
  rfl

/-- Of an entry that is left out the padding behind it stays. -/
theorem gap_eq (met : Meets text feed drop p start after item span) {floor place : Nat}
    {others : List Span} (begins : (widen (scan text) floor span).start = place)
    (front : ∀ other ∈ others, after.index ≤ other.start) :
    gap (scan text) (widen (scan text) floor span :: others) place (scan text).length =
      textBetween (scan text) span.stop after.index ++ gap (scan text) others after.index
        (scan text).length := by
  have within : span.start ≤ (scan text).length := by
    rw [met.fills.start, ← met.placed]
    exact start.index_le_length
  have stop := @widen_stop (scan text) span floor within
  have wide : (widen (scan text) floor span).start ≤ (widen (scan text) floor span).stop :=
    Nat.le_add_right _ _
  have left :=
    gap_of_gone wide (stop ▸ met.padded.start_le) (met.tokens ▸ after.index_le_length) front
  rw [begins, stop] at left
  exact left

end Meets

/-- From a line break on, the lines of the entries that are not dropped are left. -/
theorem exists_thinned (verbatim : dialect.OnlyVerbatim) (foot : Foot (scan text) feed)
    (trail : Trail dialect cursor items) (tokens : cursor.tokens = scan text)
    (low : cursor.index ≤ feed)
    (spans? : items.map Entry.span? = spans.map some) (apart : ∀ span ∈ spans, span.stop ≤ feed)
    (agree : ∀ item ∈ items, ∀ span, item.span? = some span → drop span = !p item) {floor : Nat}
    (below : floor ≤ cursor.index) :
    (∀ other ∈ widenAll (scan text) floor (spans.filter drop), cursor.index ≤ other.start) ∧
      ∃ last body, last.tokens = scan text ∧ last.index = feed ∧
        Thinned dialect p last cursor (items.filter p) body ∧
        gap (scan text) (widenAll (scan text) floor (spans.filter drop)) cursor.index
          (scan text).length =
          body ++ Token.textOf last.rest := by
  induction trail generalizing spans floor with
  | @closed cursor closes =>
      rw [foot.isAtClose_eq_false tokens low] at closes
      cases closes
  | @ended cursor broken closes =>
      cases spans with
      | cons span spans => cases spans?
      | nil =>
          have here : cursor.index = feed := by
            by_contra apart
            have padded := Cursor.padded_advance (beq_iff_eq.mp broken)
            rw [tokens] at padded
            have behind := foot.le_of_padded padded (by omega)
            rw [foot.isAtClose_eq_false (cursor.tokens_advance.trans tokens) behind] at closes
            cases closes
          refine ⟨List.forall_mem_nil _, cursor, [], tokens, here, .stays, ?_⟩
          rw [List.filter_nil, widenAll, gap_nil, List.nil_append, cursor.rest_eq_drop, tokens,
            textBetween, List.take_length]
  | @next cursor after item items broken opens run later ih =>
      obtain ⟨span, spans, rfl, met, others, apart⟩ :=
        exists_meets verbatim foot (cursor.tokens_advance.trans tokens) run spans? apart agree
      have agree := (List.forall_mem_cons.mp agree).2
      have ahead : cursor.index ≤ after.index :=
        Nat.le_trans (Nat.le_of_lt (Cursor.index_lt_advance (beq_iff_eq.mp broken)))
          met.fills.crosses.index_le
      cases belongs : p item with
      | true =>
          obtain ⟨front, last, body, tokens', index, thinned, text'⟩ :=
            ih met.tokens met.reached others apart agree (Nat.le_trans below ahead)
          obtain ⟨crossed, split⟩ := met.fills.crosses.suffix.trans cursor.suffix_advance
          have copied := gap_of_kept (met.tokens.trans tokens.symm) split.symm front
          rw [tokens, text'] at copied
          rw [List.filter_cons_of_neg (met.stays belongs), List.filter_cons_of_pos belongs]
          exact ⟨fun other mem => Nat.le_trans ahead (front other mem), last, _, tokens', index,
            .kept broken run belongs split.symm thinned, by rw [copied, List.append_assoc]⟩
      | false =>
          obtain ⟨front, last, body, tokens', index, thinned, text'⟩ :=
            ih met.tokens met.reached others apart agree met.padded.start_le
          have lead := Cursor.padded_advance (beq_iff_eq.mp broken)
          rw [tokens, ← met.fills.start] at lead
          have begins :=
            widen_start_of_lineBreak below lead (by rw [← tokens]; exact Cursor.isAt_iff.mp broken)
          rw [List.filter_cons_of_pos (met.goes belongs),
            List.filter_cons_of_neg (by rw [belongs]; decide), widenAll]
          exact ⟨List.forall_mem_cons.mpr
            ⟨Nat.le_of_eq begins.symm, fun other mem => Nat.le_trans ahead (front other mem)⟩,
            last, _, tokens', index, .gone broken run belongs
            (isPadding_of_mem_textBetween met.padded) thinned,
            by rw [met.gap_eq begins front, text', List.append_assoc]⟩

/-- What is left of a comment behind its opening marker. -/
theorem exists_pruned (verbatim : dialect.OnlyVerbatim) (foot : Foot (scan text) feed)
    (opens : (Cursor.ofTokens (scan text)).isAt .opening = true)
    (heads : Heads dialect (firstPlace text) items)
    (spans? : items.map Entry.span? = spans.map some) (apart : ∀ span ∈ spans, span.stop ≤ feed)
    (agree : ∀ item ∈ items, ∀ span, item.span? = some span → drop span = !p item) :
    ∃ last body, last.tokens = scan text ∧ last.index = feed ∧
      Pruned dialect p last (Cursor.ofTokens (scan text)) (items.filter p) body ∧
      gap (scan text) (widenAll (scan text) 0 (spans.filter drop)) 0 (scan text).length =
        textBetween (scan text) 0 ((Cursor.ofTokens (scan text)).index + 1) ++
          (body ++ Token.textOf last.rest) := by
  have tokens : (Cursor.ofTokens (scan text)).tokens = scan text := Cursor.tokens_placed _ _
  have padded := Cursor.padded_ofTokens (scan text)
  rw [firstPlace] at heads
  generalize Cursor.ofTokens (scan text) = opening at *
  have advanced := opening.tokens_advance.trans tokens
  have stands : kindAt? (scan text) opening.index = some .opening :=
    tokens ▸ Cursor.isAt_iff.mp opens
  have behind := Cursor.padded_advance (beq_iff_eq.mp opens)
  rw [tokens] at behind
  have low := foot.le_of_padded behind (foot.opening_lt padded stands)
  have within : opening.index + 1 ≤ (scan text).length := lt_length_of_kindAt? stands
  have whole {omitted : List Span} (front : ∀ other ∈ omitted, opening.index + 1 ≤ other.start) :
      gap (scan text) omitted 0 (scan text).length =
        textBetween (scan text) 0 (opening.index + 1) ++
        gap (scan text) omitted (opening.index + 1) (scan text).length := by
    rw [← gap_append _ _ (Nat.zero_le _) within, gap_in_front _ front]
  cases broken : opening.advance.isAt .lineBreak with
  | true =>
      rw [Cursor.accept_of_isAt broken] at heads
      obtain ⟨front, last, body, tokens', index, thinned, text'⟩ :=
        exists_thinned verbatim foot (heads.trail broken) advanced low spans? apart agree
          (Nat.zero_le _)
      refine ⟨last, textBetween (scan text) (opening.index + 1) opening.advance.index ++ body,
        tokens', index,
        .lines (isPadding_of_mem_textBetween behind) thinned, ?_⟩
      rw [whole fun other mem => Nat.le_trans behind.start_le (front other mem),
        ← gap_append _ _ behind.start_le (advanced ▸ opening.advance.index_le_length),
        gap_in_front _ front, text',
        List.append_assoc]
  | false =>
      rw [Cursor.accept_of_not_isAt broken] at heads
      cases heads with
      | closed closes =>
          rw [foot.isAtClose_eq_false advanced low] at closes
          cases closes
      | @first after item items _ run later =>
          obtain ⟨span, spans, rfl, met, others, apart⟩ :=
            exists_meets verbatim foot advanced run spans? apart agree
          have agree := (List.forall_mem_cons.mp agree).2
          have beyond : opening.index + 1 ≤ after.index :=
            Nat.le_trans behind.start_le met.fills.crosses.index_le
          cases belongs : p item with
          | true =>
              obtain ⟨front, last, body, tokens', index, thinned, text'⟩ :=
                exists_thinned verbatim foot later met.tokens met.reached others apart agree
                  (Nat.zero_le _)
              obtain ⟨crossed, split⟩ := met.fills.crosses.suffix.trans (List.dropWhile_suffix _)
              have stepped := opening.tokens_step.trans tokens
              have copied := gap_of_kept (met.tokens.trans stepped.symm) split.symm front
              rw [stepped, text', Cursor.index_step (beq_iff_eq.mp opens)] at copied
              rw [List.filter_cons_of_neg (met.stays belongs), List.filter_cons_of_pos belongs]
              refine ⟨last, _, tokens', index, .kept run belongs split.symm thinned, ?_⟩
              rw [whole fun other mem => Nat.le_trans beyond (front other mem), copied,
                List.append_assoc]
          | false =>
              obtain ⟨front, last, body, tokens', index, thinned, text'⟩ :=
                exists_thinned verbatim foot later met.tokens met.reached others apart agree
                  met.padded.start_le
              have begins :=
                widen_start_of_opening (Nat.zero_le _) (met.fills.start.symm ▸ behind) stands
              rw [List.filter_cons_of_pos (met.goes belongs),
                List.filter_cons_of_neg (by rw [belongs]; decide), widenAll]
              refine ⟨last, _, tokens', index,
                .gone run belongs (isPadding_of_mem_textBetween met.padded) thinned, ?_⟩
              rw [whole (List.forall_mem_cons.mpr ⟨Nat.le_of_eq begins.symm, fun other mem =>
                Nat.le_trans beyond (front other mem)⟩), met.gap_eq begins front, text',
                  List.append_assoc]

end Layout

end DocComment
