import DocComment.Proofs.Reading.Origin
import DocComment.Proofs.Reading.Written
import DocComment.Proofs.Rendering.Remains
import DocComment.Proofs.Rendering.Replaced
import DocComment.Proofs.Rendering.Separated

/-!
# Tags that were changed are read back

A tag of a comment that is given another payload is written in the place where
it stood, and reading the comment again gives the changed tag at the same place
of the list (`Dialect.read_withTag`).
-/

namespace DocComment

open Token

/--
Cleaning up the edited document drops no padding, and the closing marker that
is put in order is one of the source, or there is none.
-/
structure Document.IsSettled (document : Document) : Prop where
  padding : Cleanup.Settled document.revision
  closes : (∃ token ∈ document.tokens, token.kind = .closing) ∨
    document.isModified = true ∧ ¬ Cleanup.closer <:+: document.revision

/-! ## What stands behind a changed tag -/

namespace Cleanup.Remains

variable {behind tail body : Text} {tokens : List Token}

/-- What remains behind a tag parts all tokens in front of it from what follows. -/
theorem parted (remains : Remains behind tail) : tail.Parted ∧ firstKind? tail ≠ some .other := by
  have begins : ∃ c rest, tail = c :: rest ∧ (isPadding c = true ∨ c = '\n' ∨ c = '\r' ∨ c = '*') ∧
      firstKind? tail ≠ some .other := by
    obtain ⟨ends, proper, -, -⟩ := remains
    cases tail with
    | nil => exact absurd rfl proper
    | cons c rest =>
        refine ⟨c, rest, rfl, ?_⟩
        cases pads : isPadding c with
        | true =>
            rw [firstKind?, scan_cons_of_padding pads]
            exact ⟨.inl rfl, by simp⟩
        | false =>
            rw [List.dropWhile_cons_of_neg (Bool.eq_false_iff.mp pads)] at ends
            rcases exists_of_endLine ends with empty | ⟨broken, more, same, feed⟩ | ⟨more, same⟩
            · cases empty
            · rw [same, firstKind?_feed feed]
              rcases feed with rfl | rfl
              · cases same
                exact ⟨.inr (.inl rfl), by decide⟩
              · cases same
                exact ⟨.inr (.inr (.inl rfl)), by decide⟩
            · rw [same, firstKind?_closer]
              cases same
              exact ⟨.inr (.inr (.inr rfl)), by decide⟩
  obtain ⟨c, rest, rfl, first, known⟩ := begins
  refine ⟨⟨?_, ?_⟩, known⟩
  · rintro d ⟨⟩
    rw [isPadding, Bool.or_eq_true, beq_iff_eq, beq_iff_eq] at first
    rcases first with (rfl | rfl) | rfl | rfl | rfl
    all_goals decide
  · rintro ⟨⟩
    rcases first with pads | feed | carriage | star
    · cases pads
    · cases feed
    · cases carriage
    · cases star

/-- Behind a tag that does not end in a blank or half a marker, its line ends. -/
theorem endsTag (remains : Remains behind tail) (firm : ¬ Text.EndsInBlank body)
    (quoteless : Quoteless tokens)
    (apart : behind.head? = some '*' → body.getLast? ≠ some '/' ∧ ¬ ['/', '*'] <:+ body) :
    Dialect.EndsTag body tokens tail (scan (tail.dropWhile isPadding)) := by
  obtain ⟨parted, known⟩ := remains.parted
  constructor
  case seam =>
    refine ⟨parted, known, fun c _ pads d last => ?_, fun head => apart (remains.star head),
      fun _ => .inl rfl,
      fun _ => .inr quoteless⟩
    have black : isBlank d ≠ true := fun blank => firm ⟨d, last, blank⟩
    constructor
    · rw [← Bool.not_eq_true]
      exact fun pads => black (isBlank_of_isPadding pads)
    · rintro rfl
      exact black rfl
  case padded =>
    refine ⟨(scan tail).takeWhile fun token => token.kind == .padding, ?_, ?_⟩
    · intro token mem
      have pads : token.kind = .padding :=
        beq_iff_eq.mp
          (List.mem_takeWhile_imp (p := fun token : Token => token.kind == .padding) mem)
      have held : token ∈ scan tail := (List.takeWhile_prefix _).subset mem
      exact ⟨pads, (isPiece_of_mem_scan held (by rw [pads]; decide)).text_of_padding pads⟩
    · rw [← dropWhile_scan, List.takeWhile_append_dropWhile]
  case ends => exact remains.ends
  case proper =>
    intro empty
    have whole := textOf_scan (tail.dropWhile isPadding)
    rw [empty] at whole
    exact remains.proper whole.symm

end Cleanup.Remains

/-! ## Where a tag stood -/

namespace Dialect

open Cursor

variable {dialect : Dialect} {text : Text} {document : Document} {place : Nat} {old new : Tag}

/-- The place of a tag that was read: its marker begins it, and its line ends behind it. -/
structure Stood (dialect : Dialect) (text : Text) (tag : Tag) (span : Span) (after : Cursor) : Prop where
  span? : tag.span = some span
  begins : BeginsTag (textOf ((scan text).drop span.start))
  ends : EndLine (scan ((textOf ((scan text).drop span.stop)).dropWhile isPadding))
  rest : after.rest = scan ((textOf ((scan text).drop span.stop)).dropWhile isPadding)
  run : ∃ before : Cursor, before.tokens = scan text ∧ entry dialect before = .ok (.tag tag) after

theorem exists_stood (verbatim : dialect.OnlyVerbatim) (run : dialect.read text = .ok document)
    (stands : document.comment.entries[place]? = some (.tag old)) :
    ∃ span after, Stood dialect text old span after := by
  obtain ⟨before, after, tokens, -, taken⟩ :=
    exists_entry_of_read verbatim run _ (List.mem_of_getElem? stands)
  obtain ⟨shared, padding, covers⟩ := covers_of_entry verbatim taken
  have start : (scan text).drop before.index = before.rest := tokens ▸ before.rest_eq_drop.symm
  have stop : (scan text).drop (before.index + shared.length) = padding ++ after.rest := by
    rw [← List.drop_drop, start, covers.rest, List.drop_left]
  have marked := (tag_of_entry taken).1
  have soft := covers.arePadding tokens
  have line :
      scan ((textOf ((scan text).drop (before.index + shared.length))).dropWhile isPadding) =
      after.rest := by
    rw [← dropWhile_scan, scan_textOf_drop, stop, dropWhile_padding soft covers.ends]
  have bound : (Span.between before.index (before.index + shared.length)).stop =
      before.index + shared.length := by
    rw [Span.between_stop, Nat.max_eq_right (Nat.le_add_right _ _)]
  refine ⟨.between before.index (before.index + shared.length), after, covers.span?, ?_, ?_, ?_,
    before, tokens, taken⟩
  · rw [Span.between_start, BeginsTag, firstKind?, scan_textOf_drop, start]
    exact beq_iff_eq.mp marked
  · rw [bound, line]
    exact covers.ends
  · rw [bound, line]

theorem exists_tiles (verbatim : dialect.OnlyVerbatim) (run : dialect.read text = .ok document)
    (stands : document.comment.entries[place]? = some (.tag old)) {span : Span}
    (span? : old.span = some span) :
    ∃ opening close spans, Tiles (scan text) opening close spans ∧ span ∈ spans := by
  obtain ⟨opening, close, spans, spans?, tiles⟩ := tiles_of_read verbatim run
  rw [tokens_of_read run] at tiles
  refine ⟨opening, close, spans, tiles, ?_⟩
  have mem := List.mem_map_of_mem (f := Entry.span?) (List.mem_of_getElem? stands)
  rw [comment_of_read run, spans?, show (Entry.tag old).span? = some span from span?] at mem
  obtain ⟨same, held, equal⟩ := List.mem_map.mp mem
  cases equal
  exact held

section Stood

variable (verbatim : dialect.OnlyVerbatim) (run : dialect.read text = .ok document)
  (stands : document.comment.entries[place]? = some (.tag old)) {span : Span} {after : Cursor}
  (stood : Stood dialect text old span after)
include verbatim run stands stood

/-- What stands in front of a tag begins with the opening marker, whatever tag follows it. -/
theorem opens_of_stood {body : Text} (begins : BeginsTag body) :
    (textOf ((scan text).take span.start) ++ body).Opens := by
  obtain ⟨opening, close, spans, tiles, mem⟩ := exists_tiles verbatim run stands stood.span?
  exact opens_of_scan_eq (scan_append_of_beginsTag stood.begins begins) tiles.front tiles.opens
    (tiles.inside span mem).1

/-- A closing marker in the source stands behind every tag. -/
theorem closer_infix_of_stood (closed : ∃ token ∈ document.tokens, token.kind = .closing) :
    Cleanup.closer <:+: textOf ((scan text).drop span.stop) := by
  obtain ⟨opening, close, spans, tiles, mem⟩ := exists_tiles verbatim run stands stood.span?
  obtain ⟨token, held, kind⟩ := closed
  rw [tokens_of_read run] at held
  obtain ⟨index, found⟩ := List.mem_iff_getElem?.mp held
  have late : span.stop ≤ index := by
    by_contra early
    have high := (tiles.inside span mem).2
    refine tiles.unclosed index (by omega) ?_
    rw [kindAt?, found, Option.map_some, kind]
  have behind : token ∈ (scan text).drop span.stop := by
    refine List.mem_iff_getElem?.mpr ⟨index - span.stop, ?_⟩
    rw [List.getElem?_drop, Nat.add_sub_cancel' late, found]
  obtain ⟨first, last, split⟩ := List.append_of_mem behind
  rw [split, textOf_append, textOf_cons,
    (isPiece_of_mem_scan held (by rw [kind]; decide)).text_of_closing kind]
  exact ⟨textOf first, textOf last, List.append_assoc _ _ _⟩

/--
A tag that was changed is read back at its place, when it is written in a way
that it is read from and nothing behind it goes on with its description.
-/
theorem read_withTag (names : dialect.naming.NamesClasses) (new? : new.span = some span)
    (differs : new ≠ old) (content : new.payload.kind ≠ .cleared)
    (settled : (document.withTag place new).IsSettled)
    {body : Text} {tokens : List Token} {item : Entry}
    (written : decorate (new.renderChanged text) = body)
    (writes : WritesTag dialect body tokens item) (quoteless : Quoteless tokens)
    (firm : ¬ Text.EndsInBlank body)
    (apart : (textOf ((scan text).drop span.stop)).head? = some '*' →
      body.getLast? ≠ some '/' ∧ ¬ ['/', '*'] <:+ body)
    (halts : item.IsDescribed →
      HaltsBehind ((textOf ((scan text).drop span.stop)).dropWhile isPadding)) :
    ∃ output printed found, (document.withTag place new).render = .ok output ∧
      dialect.read output = .ok printed ∧ printed.comment.entries[place]? = some found ∧
        found.unplaced = item.unplaced := by
  obtain ⟨revision, rendered⟩ :=
    Document.render_withTag verbatim run stands stood.span? new? differs content
  have settles := settled.padding
  rw [written] at revision
  rw [revision, ← List.append_assoc] at settles
  have solid : ¬ Text.EndsInBlank (textOf ((scan text).take span.start) ++ body) := by
    obtain ⟨_, _, -, -, head⟩ := writes.begins.exists_first
    exact Text.not_endsInBlank_append (List.ne_nil_of_mem (List.mem_of_head? head)) firm _
  have closes : Cleanup.closer <:+: textOf ((scan text).drop span.stop) ∨
      ¬ Cleanup.closer <:+: textOf ((scan text).take span.start) ++ body ++
      textOf ((scan text).drop span.stop) := by
    rcases settled.closes with closed | ⟨-, absent⟩
    · exact .inl (closer_infix_of_stood verbatim run stands stood closed)
    · rw [revision, ← List.append_assoc] at absent
      exact .inr absent
  obtain ⟨tail, finished, remains⟩ :=
    Cleanup.exists_remains (opens_of_stood verbatim run stands stood writes.begins)
    settles solid stood.ends closes
  have back := remains.endsTag firm quoteless apart
  obtain ⟨printed, found, ran, held, same⟩ := read_of_rewritten verbatim names run
    (Document.entries_eq stands) stood.span? stood.begins
    writes back fun described cursor cursor' near far _ => by
      exact (Payload.Grammar.continues_eq_false_iff far remains.ends).mpr
        (remains.halts (halts described))
  refine ⟨_, printed, found, rendered, ?_, ?_, same⟩
  · rw [revision, ← List.append_assoc, finished, List.append_assoc]
    exact ran
  · rwa [List.length_take, Nat.min_eq_left] at held
    exact Nat.le_of_lt (List.getElem?_eq_some_iff.mp stands).1

end Stood

end Dialect

/-! ## Canonical tags -/

namespace Document

/-- Whether the line behind a tag that was read would go on with a description. -/
def GoesOnBehind (document : Document) (tag : Tag) : Prop :=
  ∃ span, tag.span = some span ∧
    Payload.Grammar.continues (Cursor.placed document.tokens span.stop) = true

/-- Whether a tag that was read is followed by the closing marker at once. -/
def ClosesRightBehind (document : Document) (tag : Tag) : Prop :=
  ∃ span, tag.span = some span ∧ kindAt? document.tokens span.stop = some .closing

end Document

/-- A payload with a text was not cleared. -/
theorem Payload.kind_ne_cleared {payload : Payload} (full : payload.render ≠ []) :
    payload.kind ≠ .cleared := by
  intro cleared
  cases payload with
  | cleared => exact full rfl
  | plain | typed | call => cases cleared

namespace Dialect

open Cursor

variable {text : Text} {document : Document} {place : Nat} {old new : Tag} {span : Span}
  {after : Cursor}

theorem not_goesOnBehind_iff (stood : Stood plain text old span after)
    (tokens : document.tokens = scan text) :
    ¬ document.GoesOnBehind old ↔
      HaltsBehind ((textOf ((scan text).drop span.stop)).dropWhile isPadding) := by
  have rest : (placed document.tokens span.stop).rest =
      scan ((textOf ((scan text).drop span.stop)).dropWhile isPadding) := by
    rw [← dropWhile_scan, scan_textOf_drop, tokens]
    rfl
  rw [← Payload.Grammar.continues_eq_false_iff rest stood.ends, ← Bool.not_eq_true]
  constructor
  · exact fun halts more => halts ⟨span, stood.span?, more⟩
  · rintro halts ⟨other, found, more⟩
    rw [stood.span?] at found
    cases found
    exact halts more

theorem closesRightBehind_of_stood (stood : Stood plain text old span after)
    (tokens : document.tokens = scan text)
    (star : (textOf ((scan text).drop span.stop)).head? = some '*') :
    document.ClosesRightBehind old := by
  refine ⟨span, stood.span?, ?_⟩
  obtain ⟨rest, split⟩ := List.head?_eq_some_iff.mp star
  have ends := stood.ends
  rw [split, List.dropWhile_cons_of_neg (by decide)] at ends
  have closes : firstKind? ('*' :: rest) = some .closing := by
    rcases exists_of_endLine ends with empty | ⟨broken, more, same, rfl | rfl⟩ | ⟨more, same⟩
    · cases empty
    · cases same
    · cases same
    · rw [same, firstKind?_closer]
  rw [← split, firstKind?, scan_textOf_drop] at closes
  rw [tokens, kindAt?, ← List.head?_drop]
  exact closes

/-- A document whose closing marker is a token is written as it was read when a tag
takes its own place. -/
theorem render_withTag_self (run : plain.read text = .ok document)
    (stands : document.comment.entries[place]? = some (.tag old))
    (settled : (document.withTag place old).IsSettled) :
    (document.withTag place old).render = .ok text := by
  rw [Document.withTag_self stands] at settled ⊢
  obtain ⟨opens, rendered⟩ := render_of_read_eq plain_onlyVerbatim.movesForward run
  rw [rendered, Cleanup.completeMarkers_of_closes opens]
  rcases settled.closes with ⟨token, mem, kind⟩ | ⟨modified, -⟩
  · rw [tokens_of_read run] at mem
    have marker : token.text = Cleanup.closer :=
      (isPiece_of_mem_scan mem (by rw [kind]; decide)).text_of_closing kind
    exact marker ▸ text_infix_of_mem_scan mem
  · rw [Document.isModified, comment_of_read run, bne_self_eq_false] at modified
    cases modified

/-- Behind padding a text ends as it does by itself. -/
theorem suffix_of_separated {front separator text : Text} (proper : separator ≠ [])
    (soft : ∀ c ∈ separator, isPadding c = true) (full : text ≠ [])
    (ends : ['/', '*'] <:+ front ++ separator ++ text) : ['/', '*'] <:+ text := by
  obtain ⟨before, split⟩ := ends
  rcases List.append_eq_append_iff.mp split with ⟨more, same, tail⟩ | ⟨more, same, tail⟩
  · cases more with
    | nil => exact tail ▸ List.suffix_refl _
    | cons c more =>
        cases more with
        | nil =>
            have slash : c = '/' := (List.cons.inj tail).1.symm
            have last := congrArg List.getLast? same
            rw [List.getLast?_append_of_ne_nil _ proper, List.getLast?_append, slash] at last
            exact absurd (soft '/' (List.mem_of_getLast? last)) (by decide)
        | cons d more =>
            have empty := congrArg List.length tail
            simp only [List.length_cons, List.length_nil, List.length_append] at empty
            exact absurd (List.length_eq_zero_iff.mp (by omega)) full
  · exact ⟨more, tail.symm⟩

/-- A canonical tag that takes the place of one that was read is read back there. -/
theorem read_of_canonical (run : plain.read text = .ok document)
    (stands : document.comment.entries[place]? = some (.tag old)) (span? : new.span = old.span)
    (unworded : new = old ∨ new.wording = none)
    (canonical : (Tag.fresh new.name new.payload).IsCanonical)
    (separated : Separator.ofTag text new ≠ [])
    (head : ∃ c, new.payload.render.head? = some c ∧ isBlank c = false)
    (unbroken : '\n' ∉ new.payload.render) (firm : ¬ Text.EndsInBlank new.payload.render)
    (quoteless : Quoteless (scan (new.payload.render ++ closingLine)))
    (apart : document.ClosesRightBehind old →
      new.payload.render.getLast? ≠ some '/' ∧ ¬ ['/', '*'] <:+ new.payload.render)
    (halts : new.payload.IsDescribed → ¬ document.GoesOnBehind old)
    (settled : (document.withTag place new).IsSettled) :
    ∃ output printed found, (document.withTag place new).render = .ok output ∧
      plain.read output = .ok printed ∧
      printed.comment.entries[place]? = some (.tag found) ∧ found.name = new.name ∧
      found.payload = new.payload := by
  by_cases same : new = old
  · subst same
    exact ⟨text, document, new, render_withTag_self run stands settled, run, stands, rfl, rfl⟩
  · replace unworded := unworded.resolve_left same
    obtain ⟨span, after, stood⟩ := exists_stood plain_onlyVerbatim run stands
    have tokens := tokens_of_read run
    have full : new.payload.render ≠ [] := by
      obtain ⟨c, head, -⟩ := head
      rintro empty
      rw [empty] at head
      cases head
    have soft := (Separator.isPadding_of_ofTag text new).1
    have written :=
      new.decorate_renderChanged canonical.solid_name.unbroken unworded unbroken head text
    obtain ⟨place', writes⟩ := canonical.exists_writesTag separated soft full unbroken firm
    have names : plain.naming.NamesClasses := fun _ _ found => nomatch found
    have bare : Quoteless (scan (new.name ++ Separator.ofTag text new ++ new.payload.render)) := by
      have whole := canonical.quoteless_written separated soft full quoteless
      intro token mem other
      refine whole token (writes.cut.symm ▸ ?_) other
      exact List.mem_append_left _ mem
    have solid :
        ¬ Text.EndsInBlank (new.name ++ Separator.ofTag text new ++ new.payload.render) :=
      Text.not_endsInBlank_append full firm _
    obtain ⟨output, printed, found, rendered, ran, held, alike⟩ :=
      read_withTag plain_onlyVerbatim run stands stood names (span?.trans stood.span?) same
        (Payload.kind_ne_cleared full) settled written writes
        bare solid
        (fun star => by
          obtain ⟨slash, marker⟩ := apart (closesRightBehind_of_stood stood tokens star)
          rw [List.getLast?_append_of_ne_nil _ full]
          exact ⟨slash, fun ends => marker (suffix_of_separated separated soft full ends)⟩)
        (fun described => (not_goesOnBehind_iff stood tokens).mp (halts described))
    cases found with
    | prose prose => cases alike
    | tag tag =>
        have equal := Entry.tag.inj alike
        have name := congrArg Tag.name equal
        have payload := congrArg Tag.payload equal
        exact ⟨output, printed, tag, rendered, ran, held, name, payload⟩

end Dialect

end DocComment
