import DocComment.Payload.Reader
import DocComment.Proofs.TypeExpr.Inverse

/-!
# Reading written subjects

A canonical subject is read back from its written form, when its line ends
behind it or a space and a word follow (`run_subject`).
-/

namespace DocComment

open Token

/-- A line ends in front of the text, and the next one begins with a tag or with
the closing marker. -/
structure EndsEntry (text : Text) : Prop where
  head : text.head? = some '\n'
  scanned : ∃ broken more, scan text = ⟨.lineBreak, broken⟩ :: scan more ∧
    (firstKind? (more.dropWhile isPadding) = some .tag ∨
      firstKind? (more.dropWhile isPadding) = some .closing)

theorem EndsEntry.firstKind? {text : Text} (ends : EndsEntry text) :
    firstKind? text = some .lineBreak := by
  obtain ⟨rest, rfl⟩ := List.head?_eq_some_iff.mp ends.head
  exact firstKind?_cons _ _

/-- Behind a subject its line ends, or a space and a word follow. -/
def EndsSubject (text : Text) : Prop :=
  EndsEntry text ∨ ∃ more, text = ' ' :: more ∧ firstKind? more = some .name

namespace EndsSubject

variable {text : Text} (ends : EndsSubject text)
include ends

theorem firstKind?_dropWhile :
    firstKind? (text.dropWhile isPadding) = some .lineBreak ∨
      firstKind? (text.dropWhile isPadding) = some .name := by
  rcases ends with ended | ⟨more, rfl, first⟩
  · have first := ended.firstKind?
    left
    rw [dropWhile_of_firstKind? (by rw [first]; decide), first]
  · right
    rw [List.dropWhile_cons_of_pos rfl, dropWhile_of_firstKind? (by rw [first]; decide), first]

theorem endsType : TypeExpr.Grammar.EndsType text := by
  have first := ends.firstKind?_dropWhile
  have final : TypeExpr.Grammar.EndsPostfix text := by
    rcases ends with ended | ⟨more, rfl, _⟩
    · obtain ⟨rest, rfl⟩ := List.head?_eq_some_iff.mp ended.head
      exact TypeExpr.Grammar.endsPostfix_mark rfl (by decide) rest
    · exact TypeExpr.Grammar.endsPostfix_mark rfl (by decide) more
  refine final.endsType ?_ ?_ <;> rcases first with first | first <;> rw [first] <;> decide

theorem endsWord : text.EndsWord :=
  ends.endsType.endsPostfix.endsAtom.endsWord

theorem isAt_varName {cursor : Cursor} (stands : cursor.rest = scan (text.dropWhile isPadding)) :
    cursor.isAt .varName = false := by
  rw [Cursor.isAt, Cursor.kind?_of_rest stands]
  rcases ends.firstKind?_dropWhile with first | first <;> rw [first] <;> rfl

/-- A subject is separated from what follows it. -/
theorem run_expectSeparated {before after : Cursor} (reaches : before.Reaches text after) :
    Payload.Grammar.expectSeparated after = .ok () after := by
  have separated : (after.isAtLineEnd || after.isAfterPadding) = true := by
    rcases ends with ended | ⟨more, rfl, _⟩
    · have first := ended.firstKind?
      have stands := reaches.rest_eq (dropWhile_of_firstKind? (by rw [first]; decide))
      rw [Cursor.isAtLineEnd, Cursor.kind?_of_rest stands, first]
      rfl
    · rw [reaches.padded, Bool.or_eq_true]
      exact Or.inr rfl
  rw [Payload.Grammar.expectSeparated, Read.run_get_bind, separated, if_pos rfl]
  rfl

end EndsSubject

namespace Subject

/-- What a subject is made of that is read back from its written form. -/
structure IsCanonical (subject : Subject) : Prop where
  type : ∀ type, subject.type? = some type → type.isCanonical = true
  dollar : subject.kind = .param ∨ subject.kind = .var → ∀ type, subject.type? = some type →
    type.render.head? ≠ some '$'
  name : ∀ name, subject.variableName? = some name → isSole .varName name = true
  proper : subject.kind = .var → subject.type?.isSome = true ∨ subject.variableName?.isSome = true

end Subject

namespace Payload

namespace Grammar

open TypeExpr TypeExpr.Grammar

variable {cursor : Cursor} {rest : Text}

theorem run_typeUnless {type : TypeExpr} (canonical : type.isCanonical = true)
    (ends : EndsType rest) (stands : cursor.rest = scan (type.render ++ rest)) :
    ∃ after, typeUnless false cursor = .ok (some type) after ∧ cursor.Reaches rest after := by
  obtain ⟨after, run, reaches⟩ := read_render canonical ends stands
  refine ⟨after, ?_, reaches⟩
  rw [typeUnless, if_neg Bool.false_ne_true, Read.run_bind_of_ok run]
  rfl

theorem run_typeUnless_absent : typeUnless true cursor = .ok none cursor :=
  rfl

/-- In front of the marks of a parameter no type is missing. -/
theorem isAtParameter_marks {byReference variadic : Bool} {name : Text}
    (sole : isSole .varName name = true)
    (stands : cursor.rest = scan (marksOf byReference variadic (some name) ++ rest)) :
    isAtParameter cursor = true := by
  have first : firstKind? ((some name).getD [] ++ rest) = some .varName :=
    firstKind?_varName sole rest
  obtain ⟨middle, after, ran, run, final, _⟩ :=
    run_marks first (by decide) (by decide) (by decide) stands
  rw [Read.run_accept] at ran run
  cases ran
  cases run
  rw [isAtParameter, Cursor.isAt, Cursor.kind?_of_rest final, first]
  rfl

/-- A type that is not written with a dollar sign does not begin as a variable. -/
theorem isAt_varName_type {type : TypeExpr} (canonical : type.isCanonical = true)
    (dollar : type.render.head? ≠ some '$') (stands : cursor.rest = scan (type.render ++ rest)) :
    cursor.isAt .varName = false := by
  obtain ⟨kind, here, opening, named⟩ := (opensType_render canonical).exists_kind? rest stands
  rw [Cursor.isAt, here, beq_eq_false_iff_ne]
  rintro ⟨⟩
  exact dollar (named rfl)

theorem isAtParameter_type {type : TypeExpr} (canonical : type.isCanonical = true)
    (dollar : type.render.head? ≠ some '$') (stands : cursor.rest = scan (type.render ++ rest)) :
    isAtParameter cursor = false := by
  have opens := opensType_render canonical
  rw [isAtParameter, Cursor.accept_of_not_isAt (opens.isAt_eq_false rest stands rfl),
    Cursor.accept_of_not_isAt (opens.isAt_eq_false rest stands rfl),
    isAt_varName_type canonical dollar stands]

/-- The marks and the name of a parameter are taken. -/
theorem run_variable {byReference variadic : Bool} {name : Text}
    (sole : isSole .varName name = true) (ends : EndsSubject rest)
    (stands : cursor.rest = scan (marksOf byReference variadic (some name) ++ rest)) :
    ∃ second third, Read.accept .ampersand cursor = .ok byReference second ∧
      Read.accept .ellipsis second = .ok variadic third ∧
      Read.expect .varName third = .ok ⟨.varName, name⟩ third.advance ∧
      cursor.Reaches rest third.advance := by
  have first : firstKind? ((some name).getD [] ++ rest) = some .varName :=
    firstKind?_varName sole rest
  obtain ⟨second, third, ran, run, final, short, _⟩ :=
    run_marks first (by decide) (by decide) (by decide) stands
  rw [Option.getD_some, scan_append_of_isSole sole rfl ends.endsWord] at final
  exact ⟨second, third, ran, run, Read.run_expect final rfl,
    (Cursor.reaches_advance final (by simp)).of_le short⟩

theorem joinParts_singleton (text : Text) : Text.joinParts [text] = text := by
  cases text <;> rfl

theorem joinParts_pair (first : Text) {second : Text} (proper : second ≠ []) :
    Text.joinParts [first, second] = if first.isEmpty then second else first ++ ' ' :: second := by
  obtain ⟨c, more, rfl⟩ := List.exists_cons_of_ne_nil proper
  cases first with
  | nil => rfl
  | cons d others =>
      change d :: others ++ [' '] ++ c :: more = _
      simp

theorem joinParts_pair_nil (first : Text) : Text.joinParts [first, []] = first := by
  cases first <;> rfl

theorem typeText_ne_nil {type : TypeExpr} (canonical : type.isCanonical = true) :
    (Subject.typeText (some type)).isEmpty = false := by
  obtain ⟨_, starts, _⟩ := opensType_render canonical
  rw [List.isEmpty_eq_false_iff]
  exact starts.proper

theorem parts_param (type : Option TypeExpr) (byReference variadic : Bool) (name : Text) :
    (Subject.param type byReference variadic name).parts =
      [Subject.typeText type, marksOf byReference variadic (some name)] := by
  rw [Subject.parts, marksOf, Option.getD_some, List.append_assoc]

theorem marksOf_ne_nil {byReference variadic : Bool} {name : Text}
    (sole : isSole .varName name = true) :
    marksOf byReference variadic (some name) ≠ [] := by
  rw [marksOf, Option.getD_some]
  simp [(startsWith_of_isSole sole rfl).proper]

theorem run_param {type : Option TypeExpr} {byReference variadic : Bool} {name : Text}
    (canonical : (Subject.param type byReference variadic name).IsCanonical)
    (ends : EndsSubject rest)
    (stands : cursor.rest =
      scan (Text.joinParts (Subject.param type byReference variadic name).parts ++ rest)) :
    ∃ after, subject .param cursor = .ok (.param type byReference variadic name) after ∧
      cursor.Reaches rest after := by
  have sole := canonical.name name rfl
  rw [parts_param, joinParts_pair _ (marksOf_ne_nil sole)] at stands
  cases type with
  | none =>
      obtain ⟨second, third, ran, run, took, reaches⟩ := run_variable sole ends stands
      refine ⟨third.advance, ?_, reaches⟩
      rw [subject, Read.run_get_bind, isAtParameter_marks sole stands,
        Read.run_bind_of_ok run_typeUnless_absent, Read.run_bind_of_ok ran, Read.run_bind_of_ok run,
        Read.run_bind_of_ok took, Read.run_bind_of_ok (ends.run_expectSeparated reaches)]
      rfl
  | some type =>
      have typed := canonical.type type rfl
      rw [typeText_ne_nil typed, if_neg Bool.false_ne_true, List.append_assoc] at stands
      have final : EndsType (' ' :: (marksOf byReference variadic (some name) ++ rest)) :=
        endsType_marks (fun text same => by cases same; exact sole) (fun _ => Or.inr rfl)
          (by simp) rest
      obtain ⟨middle, found, front⟩ := run_typeUnless typed final stands
      have first := @firstKind?_marksOf byReference variadic (some name)
        (fun text same => by cases same; exact sole) rest
      have firm : firstKind? (marksOf byReference variadic (some name) ++ rest) ≠
          some .padding := by
        rw [first]
        cases byReference <;> cases variadic <;> simp
      obtain ⟨second, third, ran, run, took, reaches⟩ := run_variable sole ends
        (front.rest_eq ((List.dropWhile_cons_of_pos rfl).trans (dropWhile_of_firstKind? firm)))
      refine ⟨third.advance, ?_, front.trans reaches⟩
      rw [subject, Read.run_get_bind,
        isAtParameter_type typed (canonical.dollar (Or.inl rfl) type rfl) stands,
        Read.run_bind_of_ok found, Read.run_bind_of_ok ran, Read.run_bind_of_ok run,
        Read.run_bind_of_ok took, Read.run_bind_of_ok (ends.run_expectSeparated reaches)]
      rfl

theorem run_var {type : Option TypeExpr} {name : Option Text}
    (canonical : (Subject.var type name).IsCanonical) (ends : EndsSubject rest)
    (stands : cursor.rest = scan (Text.joinParts (Subject.var type name).parts ++ rest)) :
    ∃ after, subject .var cursor = .ok (.var type name) after ∧ cursor.Reaches rest after := by
  rw [Subject.parts] at stands
  cases type with
  | none =>
      cases name with
      | none => cases canonical.proper rfl <;> contradiction
      | some name =>
          have sole := canonical.name name rfl
          rw [Option.getD_some, joinParts_pair _ (startsWith_of_isSole sole rfl).proper] at stands
          obtain ⟨took, reaches⟩ := run_acceptVariable sole ends.endsWord stands
          have here : cursor.isAt .varName = true := by
            rw [Cursor.isAt, Cursor.kind?_of_rest stands]
            exact beq_iff_eq.mpr (firstKind?_varName sole rest)
          refine ⟨cursor.advance, ?_, reaches⟩
          rw [subject, Read.run_get_bind, here, Read.run_bind_of_ok run_typeUnless_absent,
            Read.run_bind_of_ok took, Read.run_bind_of_ok (ends.run_expectSeparated reaches)]
          rfl
  | some type =>
      have typed := canonical.type type rfl
      have dollar := canonical.dollar (Or.inr rfl) type rfl
      cases name with
      | none =>
          rw [Option.getD_none, joinParts_pair_nil] at stands
          obtain ⟨after, found, reaches⟩ := run_typeUnless typed ends.endsType stands
          refine ⟨after, ?_, reaches⟩
          rw [subject, Read.run_get_bind, isAt_varName_type typed dollar stands,
            Read.run_bind_of_ok found,
            Read.run_bind_of_ok (run_acceptVariable_of_not_isAt (ends.isAt_varName reaches.rest)),
            Read.run_bind_of_ok (ends.run_expectSeparated reaches)]
          rfl
      | some name =>
          have sole := canonical.name name rfl
          have first := firstKind?_varName sole rest
          rw [Option.getD_some, joinParts_pair _ (startsWith_of_isSole sole rfl).proper,
            typeText_ne_nil typed, if_neg Bool.false_ne_true, List.append_assoc] at stands
          obtain ⟨middle, found, front⟩ := run_typeUnless typed
            (endsType_space first (by decide) (by decide) (by decide)) stands
          obtain ⟨took, reaches⟩ := run_acceptVariable sole ends.endsWord
            (front.rest_eq ((List.dropWhile_cons_of_pos rfl).trans
              (dropWhile_of_firstKind? (by rw [first]; decide))))
          refine ⟨middle.advance, ?_, front.trans reaches⟩
          rw [subject, Read.run_get_bind, isAt_varName_type typed dollar stands,
            Read.run_bind_of_ok found, Read.run_bind_of_ok took,
            Read.run_bind_of_ok (ends.run_expectSeparated reaches)]
          rfl

/-- A canonical subject is read back from its written form. -/
theorem run_subject {given : Subject} (canonical : given.IsCanonical) (ends : EndsSubject rest)
    (stands : cursor.rest = scan (Text.joinParts given.parts ++ rest)) :
    ∃ after, subject given.kind cursor = .ok given after ∧ cursor.Reaches rest after := by
  cases given with
  | param type byReference variadic name => exact run_param canonical ends stands
  | var type name => exact run_var canonical ends stands
  | returned type | thrown type =>
      rw [Subject.parts, joinParts_singleton] at stands
      obtain ⟨after, run, reaches⟩ := read_render (canonical.type type rfl) ends.endsType stands
      refine ⟨after, ?_, reaches⟩
      rw [Subject.kind, subject, Read.run_bind_of_ok run,
        Read.run_bind_of_ok (ends.run_expectSeparated reaches)]
      rfl

end Grammar

end Payload

end DocComment
