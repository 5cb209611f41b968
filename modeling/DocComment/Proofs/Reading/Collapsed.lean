import DocComment.Proofs.Reading.TagLines
import DocComment.Proofs.Reading.TypedTag

/-!
# A comment with one tag on one line

The pieces of a comment with one tag are found again when its text is put on one line
(`IsTyped.exists_collapsed`), so that the tag is read there (`IsTyped.read_onOneLine`).
-/

namespace DocComment

open Token Cleanup

namespace Sections

open Cursor

variable {text description : Text} {tag : Tag} {subject : Subject} {sections : Sections}

/-- The tokens from behind the opening marker up to the closing one. -/
def inside (name : Text) (sections : Sections) : List Token :=
  sections.lead ++ ⟨.tag, name⟩ :: (sections.own ++ (sections.gap ++ sections.near))

theorem tokens_eq (name : Text) (sections : Sections) :
    sections.tokens name =
      sections.pads ++
        (⟨.opening, opener⟩ :: sections.inside name ++ ⟨.closing, closer⟩ :: sections.rest) := by
  simp only [tokens, behind, inside, List.append_assoc, List.cons_append]

namespace IsTyped

variable (typed : sections.IsTyped text tag subject description)
include typed

theorem isPiece {token : Token} (mem : token ∈ sections.tokens tag.name) : token.IsPiece :=
  isPiece_of_mem_unjoined (typed.cut ▸ mem)

theorem unclosed_inside :
    ∀ token ∈ ⟨.opening, opener⟩ :: sections.inside tag.name, token.kind ≠ .closing := by
  simp only [inside, List.forall_mem_cons, List.forall_mem_append]
  refine ⟨nofun, fun token mem closes => ?_, nofun, ?_, ?_, typed.unclosed⟩
  · have piece : token.IsPiece := typed.isPiece (by simp [tokens, mem])
    have held : token.text ⊆ runningText sections.lead := fun c within => by
      refine List.mem_flatMap.mpr ⟨token, mem, ?_⟩
      rwa [if_neg (by rw [closes]; decide)]
    rw [piece.text_of_closing closes] at held
    cases typed.blank '*' (held List.mem_cons_self)
  · exact fun token mem => Kind.ne_closing_of_isWithinType (typed.within token mem)
  · intro token mem closes
    cases (typed.soft token mem).1.symm.trans closes

/-- Behind the padding in front of the opening marker a text without decoration begins. -/
theorem text_eq :
    text = textOf sections.pads ++
      textOf (⟨.opening, opener⟩ :: sections.inside tag.name ++ ⟨.closing, closer⟩ ::
        sections.rest) := by
  rw [← textOf_append, ← tokens_eq, ← typed.cut, textOf_unjoined]

theorem decorationLength_eq : decorationLength text = (textOf sections.pads).length := by
  have padding : ∀ c ∈ textOf sections.pads, isPadding c = true := fun c mem => by
    obtain ⟨token, held, within⟩ := List.mem_flatMap.mp mem
    exact (typed.padded token held).2 c within
  rw [typed.text_eq, decorationLength_append_of_padding padding]
  exact Nat.add_zero _

theorem unjoined_drop :
    unjoined (text.drop (decorationLength text)) =
      ⟨.opening, opener⟩ :: sections.inside tag.name ++ ⟨.closing, closer⟩ :: sections.rest := by
  have cut := typed.cut
  rw [tokens_eq] at cut
  rw [typed.decorationLength_eq, ← unjoined_textOf cut]
  conv_lhs => rw [typed.text_eq, List.drop_left]

/-- What stands in front of the closing marker. -/
theorem textOf_beforeClosing :
    textOf (beforeClosing (scan text)) =
      text.take (decorationLength text) ++
        textOf (⟨.opening, opener⟩ :: sections.inside tag.name) := by
  have cut := typed.cut
  rw [tokens_eq, ← List.append_assoc] at cut
  have padded : ∀ token ∈ sections.pads, token.kind ≠ .closing := fun token mem closes => by
    cases (typed.padded token mem).1.symm.trans closes
  have unclosed := List.forall_mem_append.mpr ⟨padded, typed.unclosed_inside⟩
  have unclosed' :
      ∀ token ∈ joined (sections.pads ++ ⟨.opening, opener⟩ :: sections.inside tag.name),
      token.kind ≠ .closing :=
    fun token mem closes => by
      obtain ⟨found, held, same⟩ := kind_of_mem_joined mem
      exact unclosed found held (same.trans closes)
  have closing : (⟨.closing, closer⟩ : Token).kind ≠ .other := nofun
  have stops : beforeClosing (⟨.closing, closer⟩ :: joined sections.rest) = [] := rfl
  rw [← joined_unjoined, cut, joined_append_cons closing, beforeClosing_append unclosed', stops,
    List.append_nil, textOf_joined, textOf_append, typed.decorationLength_eq]
  conv_rhs => rw [typed.text_eq, List.take_left]

/-- On the one line the tag stands behind padding, and its subject in front of a
further prospect. -/
theorem exists_collapsed (quoteless : Quoteless (scan text)) :
    ∃ (p : Prospect) (pads far tail : List Token), p.gap = sections.gap ∧
      p.near = joined (sections.near ++ ⟨.closing, closer⟩ :: sections.rest) ∧
        p.far = joined (far ++ ⟨.closing, closer⟩ :: tail) ∧
          scan (onOneLine text) = ⟨.opening, opener⟩ ::
            (pads ++ ⟨.tag, tag.name⟩ :: (sections.own ++ (p.gap' ++ p.far))) ∧
            ArePadding pads ∧ (∀ token ∈ far, isInLine token.kind = true) ∧
              Text.Loses ((Text.lines (textOf (beforeClosing (scan text)))).any Text.hasStrayStar)
                (runningText sections.near) (textOf far) := by
  have quoteless' : Quoteless (unjoined (text.drop (decorationLength text))) := by
    rw [← joined_unjoined, typed.cut, tokens_eq] at quoteless
    rw [typed.unjoined_drop]
    exact (quoteless_of_joined quoteless).of_subset (List.subset_append_right _ _)
  obtain ⟨kept, tail, cut, flattened⟩ :=
    exists_flattened quoteless' typed.unjoined_drop typed.unclosed_inside
  rw [← typed.textOf_beforeClosing] at flattened
  -- From the opening marker to that of the tag, and from there to the end of the subject.
  have isCore := flattened.isCore
  obtain ⟨behind, rfl, following⟩ :=
    @Flattened.exists_following _ _ _ _ _ [] flattened rfl nofun nofun nofun nofun
  obtain ⟨-, inLine⟩ := List.forall_mem_cons.mp isCore.inLine
  obtain ⟨-, pieces⟩ := List.forall_mem_cons.mp isCore.pieces
  obtain ⟨pads, near, rfl, soft, following'⟩ :=
    following.exists_following inLine pieces rfl typed.blank typed.leads nofun nofun nofun
  obtain ⟨-, inLine'⟩ := List.forall_mem_cons.mp (List.forall_mem_append.mp inLine).2
  obtain ⟨-, pieces'⟩ := List.forall_mem_cons.mp (List.forall_mem_append.mp pieces).2
  obtain ⟨p, far, gap, near, far', rfl, loses⟩ :=
    following'.faces inLine' pieces' rfl typed.within typed.firm typed.soft
    typed.begins typed.still sections.rest tail
  have known : ∀ token ∈ ⟨.opening, opener⟩ ::
      (pads ++ ⟨.tag, tag.name⟩ :: (sections.own ++ p.gap')), token.kind ≠ .other := by
    simp only [List.forall_mem_cons, List.forall_mem_append]
    exact ⟨nofun, known_of_padding soft, nofun, known_of_within typed.within,
      known_of_padding p.soft'⟩
  refine ⟨p, pads, far, tail, gap, near, far', ?_, soft, ?_, loses⟩
  · have split : unjoined (onOneLine text) =
        (⟨.opening, opener⟩ :: (pads ++ ⟨.tag, tag.name⟩ :: (sections.own ++ p.gap'))) ++
        (far ++ ⟨.closing, closer⟩ :: tail) := by
      rw [cut]
      simp only [List.append_assoc, List.cons_append]
    rw [← joined_unjoined, split, joined_append_of_known known, ← far']
    simp only [List.append_assoc, List.cons_append]
  · exact fun token mem => inLine' token (List.mem_append_right _ (List.mem_append_right _ mem))

end IsTyped

end Sections

/-! ## Reading the one line -/

namespace Dialect

open Cursor

variable {here middle after : Cursor} {name : Text} {more : List Token} {kind : Subject.Kind}
  {subject : Subject}
  {found : Text × Option Text}

/-- A tag whose subject and description can be read is read as an entry. -/
theorem exists_entry_of_typed (stands : here.rest = ⟨.tag, name⟩ :: more)
    (calls : Subject.Kind.ofTagName? name = some kind)
    (run : Payload.Grammar.subject kind here.step.skipPadding = .ok subject middle)
    (described : Payload.Grammar.description middle = .ok found after)
    (ends : after.isAtLineEnd = true) :
    ∃ span, entry plain here =
      .ok (.tag ⟨name, .typed subject found.1, some span, found.2⟩) after := by
  have marked : here.isAt .tag = true := isAt_of_rest stands .tag
  have unclaimed (text : Text) : plain.claims text = false := rfl
  have named : tagName plain here = .ok name here.step.skipPadding := by
    rw [run_tagName_eq, unclaimed, Bool.and_false, if_neg Bool.false_ne_true, text_of_rest stands]
  have content : Payload.Grammar.typedWithWording kind here.step.skipPadding =
      .ok (.typed subject found.1, found.2) after := by
    rw [Payload.Grammar.typedWithWording, Read.run_bind_of_ok run, Read.run_bind_of_ok described]
    rfl
  have taken : payload plain name here.step.skipPadding =
      .ok (.typed subject found.1, found.2) after := by
    refine run_payload_of_specific ?_
    rw [specificPayload_of_kind rfl calls, Read.attempt, content]
  obtain ⟨span, run⟩ := run_tag_of_payload named taken ends
  refine ⟨span, ?_⟩
  rw [entry, Read.run_get_bind, marked, if_pos rfl]
  exact run

/-- Behind the opening marker and padding the first entry stands. -/
theorem rest_firstPlace {text : Text} {opener first : Token} {pads more : List Token}
    (split : scan text = opener :: (pads ++ first :: more)) (opens : opener.kind = .opening)
    (soft : ∀ token ∈ pads, token.kind = .padding) (hard : first.kind ≠ .padding)
    (unbroken : first.kind ≠ .lineBreak) :
    (ofTokens (scan text)).kind? = some .opening ∧ (firstPlace text).rest = first :: more := by
  have stands : (ofTokens (scan text)).rest = opener :: (pads ++ first :: more) := by
    change (scan text).dropWhile (fun token => token.kind == .padding) = _
    rw [split]
    exact List.dropWhile_cons_of_neg (by simp [opens])
  have behind : (ofTokens (scan text)).advance.rest = first :: more :=
    rest_advance stands soft (by rintro _ ⟨⟩; exact hard)
  refine ⟨by rw [kind?, stands, ← opens]; rfl, ?_⟩
  rw [firstPlace, accept_of_not_isAt, behind]
  rw [isAt_of_rest behind]
  exact beq_eq_false_iff_ne.mpr unbroken

end Dialect

/-- On the one line a comment with one tag is read as that tag, and its description
is kept unless a star is lost. -/
theorem Sections.IsTyped.read_onOneLine {text description : Text} {tag : Tag} {subject : Subject}
    {sections : Sections}
    (typed : sections.IsTyped text tag subject description) (quoteless : Quoteless (scan text)) :
    ∃ again found description', Dialect.plain.read (onOneLine text) = .ok again ∧
      again.comment.entries = [.tag found] ∧
      found.name = tag.name ∧ found.payload = .typed subject description' ∧
        (description' = description ↔
          (Text.lines (textOf (beforeClosing (scan text)))).any Text.hasStrayStar = false) := by
  obtain ⟨p, pads, far, tail, gap, near, far', split, soft, inLine, loses⟩ :=
    typed.exists_collapsed quoteless
  obtain ⟨start, middle, stands, bare, held, ends⟩ := typed.read
  have hard : (⟨.tag, tag.name⟩ : Token).kind ≠ .padding := by rintro ⟨⟩
  have unbroken : (⟨.tag, tag.name⟩ : Token).kind ≠ .lineBreak := by rintro ⟨⟩
  obtain ⟨opens, first⟩ :=
    Dialect.rest_firstPlace split rfl (fun token mem => (soft token mem).1) hard unbroken
  -- The subject was read among the lines, and it is read again in front of the other prospect.
  have beside : p.Beside sections.own start (Dialect.firstPlace (onOneLine text)).step := by
    refine ⟨?_, Cursor.rest_step first, typed.firm, ?_, fun _ => bare⟩
    · rw [stands, ends, gap, near]
    · rw [bare, Cursor.step, first]
      rfl
  obtain ⟨middle', run, ends'⟩ :=
    Payload.Grammar.run_subject_of_level beside.skipPadding held (ends.trans near.symm)
  have closing : (⟨.closing, closer⟩ : Token).kind ≠ .other := by decide
  rw [far', joined_append_cons closing] at ends'
  have inLine' : ∀ token ∈ joined far, Cursor.isInLine token.kind = true := fun token mem => by
    obtain ⟨origin, held, same⟩ := kind_of_mem_joined mem
    exact same ▸ inLine origin held
  obtain ⟨found, after, described, written, last⟩ :=
    Payload.Grammar.run_description_of_closed ends' inLine' rfl
  have closes : after.isAtClose = true := Cursor.isAtClose_iff.mpr (by rw [last]; rintro _ ⟨⟩; rfl)
  have ends'' : after.isAtLineEnd = true := by rw [Cursor.isAtLineEnd_eq, closes, Bool.true_or]
  obtain ⟨span, entered⟩ := Dialect.exists_entry_of_typed first typed.calls run described ends''
  have opened : (Dialect.firstPlace (onOneLine text)).isAtClose = false := by
    rw [← Bool.not_eq_true, Cursor.isAtClose_iff, first]
    intro all
    cases all _ rfl
  have heads := Dialect.Heads.first opened entered (.closed closes)
  refine ⟨_, _, found.1, heads.read Dialect.plain_onlyVerbatim opens, rfl, rfl, rfl, ?_⟩
  rw [written, typed.written, textOf_joined]
  exact loses.collapse_eq_iff

end DocComment
