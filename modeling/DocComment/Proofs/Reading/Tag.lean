import DocComment.Proofs.Reading.Description
import DocComment.Proofs.Reading.Entry
import DocComment.Proofs.Reading.Plain
import DocComment.Proofs.Rendering.Retyped
import DocComment.Proofs.TypeExpr.OneLine

/-!
# Reading written tags

The tags that are written the way they would be read, and that such a tag is
taken from its written form up to the end of its last line
(`Tag.IsCanonical.run_entry`).
-/

namespace DocComment

open Token

/--
The tags that are read back from their written form: a typed payload behind a
name that calls for one, or a plain payload behind any other name.
-/
inductive Tag.IsCanonical : Tag → Prop where
  | typed {name description : Text} {subject : Subject}
      (named : Subject.Kind.ofTagName? name = some subject.kind) (canonical : subject.IsCanonical)
      (described : Payload.DescriptionIsCanonical description) :
      IsCanonical (Tag.fresh name (.typed subject description))
  | plain {name text : Text} (sole : isSole .tag name = true)
      (untyped : Subject.Kind.ofTagName? name = none) (carriage : '\r' ∉ text)
      (unclosed : text.Unclosed) (trimmed : Text.trim text = text) (tidy : text.Tidy)
      (enclosed : Payload.Enclosed 0 text) : IsCanonical (Tag.fresh name (.plain text))

/-! ## Names -/

theorem isSole_of_ofTagName? {name : Text} {kind : Subject.Kind}
    (named : Subject.Kind.ofTagName? name = some kind) : isSole .tag name = true := by
  refine isSole_tag_of_lowerAscii ?_
  have among {names : List Text} (all : ∀ other ∈ names, isSole .tag other = true)
      (found : names.contains (Text.lowerAscii name) = true) :
      isSole .tag (Text.lowerAscii name) = true :=
    all _ (List.contains_iff_mem.mp found)
  unfold Subject.Kind.ofTagName? at named
  dsimp only at named
  split at named
  next found => exact among (by decide) found
  next =>
    split at named
    next found => exact among (by decide) found
    next =>
      split at named
      next found => exact among (by decide) found
      next =>
        split at named
        next found => exact among (by decide) found
        next => cases named

/-! ## Typed payloads -/

namespace Payload

open Grammar

theorem solid_of_mem_parts {subject : Subject} (canonical : subject.IsCanonical) {part : Text}
    (mem : part ∈ subject.parts) (proper : part ≠ []) : part.Solid := by
  have written {type : Option TypeExpr} (present : subject.type? = type)
      (proper : Subject.typeText type ≠ []) : Text.Solid (Subject.typeText type) := by
    cases type with
    | none => exact absurd rfl proper
    | some type => exact TypeExpr.solid_render (canonical.type type present)
  have named {name : Text} (present : subject.variableName? = some name) : name.Solid :=
    solid_of_isSole (canonical.name name present) rfl
  cases subject with
  | returned type =>
    exact List.mem_singleton.mp mem ▸ TypeExpr.solid_render (canonical.type type rfl)
  | thrown type => exact List.mem_singleton.mp mem ▸ TypeExpr.solid_render (canonical.type type rfl)
  | var type name =>
      rcases List.mem_cons.mp mem with rfl | mem
      · exact written rfl proper
      · obtain rfl := List.mem_singleton.mp mem
        cases name with
        | none => exact absurd rfl proper
        | some name => exact named rfl
  | param type byReference variadic name =>
      rcases List.mem_cons.mp mem with rfl | mem
      · exact written rfl proper
      · rw [List.mem_singleton.mp mem]
        refine (named rfl).append_left ?_
        cases byReference <;> cases variadic <;> simp

theorem DescriptionIsCanonical.solid {text : Text} (canonical : DescriptionIsCanonical text)
    (proper : text ≠ []) : text.Solid where
  unbroken := canonical.not_mem (by decide) (by decide)
  last := by
    refine ⟨text.getLast proper, List.getLast?_eq_some_getLast proper, ?_⟩
    cases pads : isPadding (text.getLast proper) with
    | false => rfl
    | true =>
        have firm := canonical.collapsed ▸ Text.not_endsInBlank_collapse text
        exact absurd ⟨_, List.getLast?_eq_some_getLast proper, isBlank_of_isPadding pads⟩ firm

theorem exists_startsWith {subject : Subject} (canonical : subject.IsCanonical)
    (description : Text) :
    ∃ kind, kind ≠ .padding ∧ StartsWith kind (Payload.typed subject description).render := by
  obtain ⟨kind, other, starts⟩ := canonical.exists_startsWith
  rw [render, Text.joinParts_concat canonical.exists_part]
  exact ⟨kind, other, starts.append _⟩

/-- A typed payload is written on one line. -/
theorem solid_render {subject : Subject} {description : Text} (canonical : subject.IsCanonical)
    (described : DescriptionIsCanonical description) :
    (Payload.typed subject description).render.Solid := by
  obtain ⟨part, mem, proper⟩ := canonical.exists_part
  refine Text.solid_join (by decide) (List.ne_nil_of_mem (List.mem_filter.mpr
    ⟨List.mem_append_left _ mem, by simpa using proper⟩)) fun text kept => ?_
  obtain ⟨inside, nonempty⟩ := List.mem_filter.mp kept
  replace nonempty : text ≠ [] := by simpa using nonempty
  rcases List.mem_append.mp inside with inside | same
  · exact solid_of_mem_parts canonical inside nonempty
  · obtain rfl := List.mem_singleton.mp same
    exact described.solid nonempty

end Payload

/-! ## Tags -/

namespace Tag.IsCanonical

variable {tag : Tag} (canonical : tag.IsCanonical)
include canonical

theorem sole : isSole .tag tag.name = true := by
  cases canonical with
  | typed named _ _ => exact isSole_of_ofTagName? named
  | plain sole _ _ _ _ _ _ => exact sole

theorem solid_name : tag.name.Solid :=
  solid_of_isSole canonical.sole rfl

theorem renderFresh_eq : (Entry.tag tag).renderFresh = tag.render := by
  cases canonical <;> rfl

/-- A payload does not begin with padding or a line feed. -/
theorem head_payload {c : Char} (head : tag.payload.render.head? = some c) :
    isPadding c = false ∧ c ≠ '\n' := by
  cases canonical with
  | @typed name description subject _ canonical described =>
      have solid := Payload.solid_render canonical described
      obtain ⟨kind, other, starts⟩ := Payload.exists_startsWith canonical description
      obtain ⟨more, written⟩ := List.head?_eq_some_iff.mp head
      replace written : (Payload.typed subject description).render = c :: more := written
      refine ⟨?_, fun same => solid.unbroken (same ▸ List.mem_of_head? head)⟩
      cases pads : isPadding c with
      | false => rfl
      | true =>
          have first := starts.kind? []
          rw [List.append_nil, written, firstKind?_cons, piece_padding pads] at first
          exact absurd (Option.some.inj first).symm other
  | plain _ _ _ _ trimmed _ _ =>
      have black := Text.head?_trim (trimmed.symm ▸ head)
      constructor
      · cases pads : isPadding c with
        | false => rfl
        | true =>
            rw [isBlank_of_isPadding pads] at black
            cases black
      · rintro rfl
        cases black

/-- What stands behind the name of a tag is separated from it, and leads to the payload. -/
theorem exists_behind {tail : Text} (broken : tail.head? = some '\n') :
    ∃ behind, starred tag.render ++ tail = tag.name ++ behind ∧ behind.EndsWord ∧
      behind.dropWhile isPadding = starred tag.payload.render ++ tail := by
  obtain ⟨rest, rfl⟩ := List.head?_eq_some_iff.mp broken
  have named := canonical.solid_name.unbroken
  rw [render]
  split
  next none =>
    refine ⟨'\n' :: rest, ?_,
      (TypeExpr.Grammar.endsPostfix_mark rfl (by decide) rest).endsAtom.endsWord, ?_⟩
    · rw [starred_of_unbroken named]
    · rw [none]
      rfl
  next more glued =>
    refine ⟨starred ('(' :: more) ++ '\n' :: rest, ?_, ?_, ?_⟩
    · rw [starred_append named, List.append_assoc]
    · exact endsWord_of_mark rfl (starred more ++ '\n' :: rest)
    · rw [glued]
      rfl
  next nonempty _ =>
    obtain ⟨c, more, written⟩ := List.exists_cons_of_ne_nil nonempty
    obtain ⟨padding, feed⟩ := canonical.head_payload (List.head?_eq_some_iff.mpr ⟨more, written⟩)
    refine ⟨' ' :: (starred tag.payload.render ++ '\n' :: rest), ?_, ?_, ?_⟩
    · rw [starred_append named, List.append_assoc]
      rfl
    · exact (TypeExpr.Grammar.endsPostfix_mark rfl (by decide) _).endsAtom.endsWord
    · rw [List.dropWhile_cons_of_pos rfl, written, starred, if_neg feed, List.cons_append,
        List.dropWhile_cons_of_neg (by simp [padding])]

/-! ## Reading a tag -/

variable {cursor : Cursor} {tail : Text}

theorem run_tagName {behind : Text} (ends : behind.EndsWord)
    (stands : cursor.rest = scan (tag.name ++ behind)) :
    ∃ after, Dialect.plain.tagName cursor = .ok tag.name after ∧
      after.rest = scan (behind.dropWhile isPadding) := by
  rw [scan_append_of_isSole canonical.sole rfl ends] at stands
  refine ⟨cursor.step.skipPadding, ?_, (Cursor.reaches_skipPadding stands (by simp)).rest⟩
  have unclaimed (text : Text) : Dialect.plain.claims text = false := rfl
  rw [Dialect.tagName, Read.run_get_bind, Read.run_bind_of_ok (Read.run_step cursor),
    Read.run_get_bind, unclaimed, Bool.and_false, if_neg Bool.false_ne_true,
    Cursor.text_of_rest stands]
  rfl

/-- The payload of a tag is read back from its written form. -/
theorem run_payload (ends : EndsEntry tail)
    (stands : cursor.rest = scan (starred tag.payload.render ++ tail)) :
    ∃ after, Dialect.plain.payload tag.name cursor = .ok (tag.payload, none) after ∧
      after.rest = scan tail := by
  have unruled (name : Text) : Dialect.plain.rule? name = none := rfl
  cases canonical with
  | @typed name description subject named canonical described =>
      change cursor.rest =
        scan (starred (Payload.typed subject description).render ++ tail) at stands
      rw [starred_of_unbroken (Payload.solid_render canonical described).unbroken] at stands
      obtain ⟨after, run, behind⟩ :=
        Payload.Grammar.run_typedWithWording canonical described ends stands
      refine ⟨after, ?_, behind⟩
      have specific : Dialect.plain.specificPayload name cursor =
          .ok (some (.typed subject description, none)) after := by
        rw [Dialect.specificPayload, unruled, named]
        dsimp only
        rw [Read.attempt, run]
      exact Read.run_bind_of_ok specific
  | @plain name text _ untyped carriage unclosed trimmed _ enclosed =>
      obtain ⟨after, run, behind⟩ :=
        Payload.Grammar.run_plainText_starred carriage unclosed enclosed
        (Text.trimEnd_of_trim trimmed) ends stands
      refine ⟨after, ?_, behind⟩
      have specific : Dialect.plain.specificPayload name cursor = .ok none cursor := by
        rw [Dialect.specificPayload, unruled, untyped]
        rfl
      have generic : Dialect.plain.genericPayload name cursor = .ok (.plain text) after := by
        rw [Dialect.genericPayload, Read.run_bind_of_ok run]
        rfl
      rw [fresh, Dialect.payload, Read.run_bind_of_ok specific]
      exact Read.run_bind_of_ok generic

/-- A tag is read back from its written form, and its line is taken up to its end. -/
theorem run_tag (ends : EndsEntry tail) (stands : cursor.rest = scan (starred tag.render ++ tail)) :
    ∃ span after, Dialect.plain.tag cursor =
      .ok (.tag ⟨tag.name, tag.payload, some span, none⟩) after ∧
      after.rest = scan tail := by
  obtain ⟨behind, split, word, payload⟩ := canonical.exists_behind ends.head
  rw [split] at stands
  obtain ⟨middle, named, front⟩ := canonical.run_tagName word stands
  rw [payload] at front
  obtain ⟨after, taken, final⟩ := canonical.run_payload ends front
  have stopped : after.isAtLineEnd = true := by
    rw [Cursor.isAtLineEnd, Cursor.kind?_of_rest final, ends.firstKind?]
  obtain ⟨span, run⟩ := Dialect.run_tag_of_payload named taken stopped
  exact ⟨span, after, run, final⟩

/-- No line of a tag ends in padding. -/
theorem tidy_render : tag.render.Tidy := by
  have inside : tag.payload.render.Tidy := by
    cases canonical with
    | typed _ canonical described => exact (Payload.solid_render canonical described).tidy
    | plain _ _ _ _ _ tidy _ => exact tidy
  have named := canonical.solid_name
  rw [render]
  split
  next => exact named.tidy
  next more glued =>
    rw [glued] at inside
    exact named.tidy_append inside
  next nonempty _ =>
    refine named.tidy_append ?_
    rintro front c back split pads
    cases front with
    | nil =>
        obtain ⟨rfl, rfl⟩ := List.cons.inj split
        obtain ⟨d, more, written⟩ := List.exists_cons_of_ne_nil nonempty
        obtain ⟨_, feed⟩ := canonical.head_payload (List.head?_eq_some_iff.mpr ⟨more, written⟩)
        rw [written]
        exact beq_eq_false_iff_ne.mpr feed
    | cons d front => exact inside front c back (List.cons.inj split).2 pads

theorem exists_render : ∃ more, tag.render = '@' :: more := by
  obtain ⟨d, others, written, _⟩ := isSole_tag_iff.mp canonical.sole
  rw [render]
  split <;> rw [written] <;> exact ⟨_, rfl⟩

theorem firstKind?_render (broken : tail.head? = some '\n') :
    firstKind? (starred tag.render ++ tail) = some .tag := by
  obtain ⟨behind, split, _⟩ := canonical.exists_behind broken
  rw [split]
  exact (startsWith_of_isSole canonical.sole rfl).kind? behind

/-- In front of a tag the reader of entries takes it. -/
theorem run_entry (ends : EndsEntry tail)
    (stands : cursor.rest = scan (starred tag.render ++ tail)) :
    ∃ span after, Dialect.plain.entry cursor =
      .ok (.tag ⟨tag.name, tag.payload, some span, none⟩) after ∧
      after.rest = scan tail ∧ after.rest.length ≤ cursor.rest.length := by
  have here : cursor.isAt .tag = true := by
    rw [Cursor.isAt, Cursor.kind?_of_rest stands, canonical.firstKind?_render ends.head,
      beq_self_eq_true]
  obtain ⟨span, after, run, behind⟩ := canonical.run_tag ends stands
  refine ⟨span, after, ?_, behind, ?_⟩
  · rw [Dialect.entry, Read.run_get_bind, here, if_pos rfl, run]
  · have verbatim : Dialect.plain.OnlyVerbatim := fun rule mem => absurd mem List.not_mem_nil
    obtain ⟨_, fills⟩ := Dialect.fills_of_tag verbatim here run
    have same := congrArg List.length fills.crosses.tokens
    have forward := fills.crosses.index_le
    simp only [Cursor.tokens, Cursor.index, List.length_append, List.length_reverse] at same forward
    omega

end Tag.IsCanonical

end DocComment
