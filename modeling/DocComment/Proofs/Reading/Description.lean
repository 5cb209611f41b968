import DocComment.Proofs.Reading.Subject
import DocComment.Proofs.Text.Trim

/-!
# Reading written descriptions

A canonical description is taken up to the end of its line and no further, since
the next line begins with a tag or closes the comment.  With the subject in
front of it that gives typed payloads (`run_typedWithWording`).
-/

namespace DocComment

open Token

/-! ## Parts of a payload -/

namespace Text

theorem join_concat {separator : Text} {texts : List Text} (proper : texts ≠ []) (last : Text) :
    join separator (texts ++ [last]) = join separator texts ++ (separator ++ last) := by
  obtain ⟨first, others, rfl⟩ := List.exists_cons_of_ne_nil proper
  rw [List.cons_append, join_cons, join_cons, List.flatMap_append, List.flatMap_singleton,
    List.append_assoc]

/-- A last part stands behind the others and a space, unless it is empty. -/
theorem joinParts_concat {parts : List Text} (proper : ∃ part ∈ parts, part ≠ []) (last : Text) :
    joinParts (parts ++ [last]) =
      joinParts parts ++ (if last.isEmpty then [] else ' ' :: last) := by
  obtain ⟨part, mem, nonempty⟩ := proper
  have kept : parts.filter (fun part => !part.isEmpty) ≠ [] :=
    List.ne_nil_of_mem (List.mem_filter.mpr ⟨mem, by simpa using nonempty⟩)
  rw [joinParts, List.filter_append, joinParts]
  cases last with
  | nil => simp
  | cons c more => exact join_concat kept (c :: more)

end Text

namespace Subject.IsCanonical

open Payload.Grammar TypeExpr.Grammar

variable {subject : Subject} (canonical : subject.IsCanonical)
include canonical

/-- The first token of a written subject is no padding, whatever stands behind the subject. -/
theorem exists_startsWith :
    ∃ kind, kind ≠ .padding ∧ StartsWith kind (Text.joinParts subject.parts) := by
  have written {type : TypeExpr} (present : subject.type? = some type) (more : Text) :
      ∃ kind, kind ≠ .padding ∧ StartsWith kind (type.render ++ more) := by
    obtain ⟨kind, starts, opens, _⟩ := TypeExpr.opensType_render (canonical.type type present)
    refine ⟨kind, ?_, starts.append more⟩
    rintro rfl
    cases opens
  have typed {type : TypeExpr} (present : subject.type? = some type) :
      (Subject.typeText (some type)).isEmpty = false :=
    typeText_ne_nil (canonical.type type present)
  have named {name : Text} (present : subject.variableName? = some name) :
      StartsWith .varName name :=
    startsWith_of_isSole (canonical.name name present) rfl
  cases subject with
  | returned type => simpa [Subject.parts, joinParts_singleton] using written rfl []
  | thrown type => simpa [Subject.parts, joinParts_singleton] using written rfl []
  | var type name =>
      cases type with
      | none =>
          cases name with
          | none => cases canonical.proper rfl <;> contradiction
          | some name =>
              rw [Subject.parts, Option.getD_some, joinParts_pair _ (named rfl).proper]
              exact ⟨_, by decide, named rfl⟩
      | some type =>
          cases name with
          | none =>
              rw [Subject.parts, Option.getD_none, joinParts_pair_nil,
                ← List.append_nil (typeText _)]
              exact written rfl []
          | some name =>
              rw [Subject.parts, Option.getD_some, joinParts_pair _ (named rfl).proper, typed rfl]
              exact written rfl _
  | param type byReference variadic name =>
      have sole : ∀ text, some name = some text → isSole .varName text = true := fun text same => by
        cases same
        exact canonical.name name rfl
      have proper := @marksOf_ne_nil byReference variadic name (sole name rfl)
      rw [parts_param, joinParts_pair _ proper]
      cases type with
      | none =>
          have first := @firstKind?_marksOf byReference variadic (some name) sole
          cases byReference with
          | true => exact ⟨.ampersand, by decide, proper, first⟩
          | false =>
              cases variadic with
              | true => exact ⟨.ellipsis, by decide, proper, first⟩
              | false => exact ⟨.varName, by decide, proper, first⟩
      | some type =>
          rw [typed rfl]
          exact written rfl _

theorem exists_part : ∃ part ∈ subject.parts, part ≠ [] := by
  obtain ⟨_, _, starts⟩ := canonical.exists_startsWith
  by_contra none
  refine starts.proper ?_
  have empty : subject.parts.filter (fun part => !part.isEmpty) = [] := by
    simpa using none
  rw [Text.joinParts, empty]
  rfl

end Subject.IsCanonical

namespace Payload

/-- What makes a description one that is read back from its written form. -/
structure DescriptionIsCanonical (description : Text) : Prop where
  letter : ∀ c, description.head? = some c → c.isAlpha = true
  unclosed : description.Unclosed
  collapsed : Text.collapse description = description

namespace DescriptionIsCanonical

variable {text : Text} (canonical : DescriptionIsCanonical text)
include canonical

theorem not_mem {c : Char} (blank : isBlank c = true) (other : c ≠ ' ') : c ∉ text := by
  intro mem
  rw [← canonical.collapsed] at mem
  exact other (Text.eq_space_of_mem_collapse mem blank)

theorem trim : Text.trim text = text := by
  have firm : ¬ text.EndsInBlank := canonical.collapsed ▸ Text.not_endsInBlank_collapse text
  have start : text.dropWhile isBlank = text := by
    cases text with
    | nil => rfl
    | cons c more =>
        refine List.dropWhile_cons_of_neg fun blank => ?_
        have same :=
          Text.eq_space_of_mem_collapse (canonical.collapsed.symm ▸ List.mem_cons_self) blank
        have letter := canonical.letter c rfl
        rw [same] at letter
        cases letter
  rw [Text.trim, Text.dropAround, start]
  exact Text.trimEnd_eq_self firm

end DescriptionIsCanonical

namespace Grammar

variable {cursor : Cursor} {text tail : Text}

/-- The rest of a line is taken up to its line feed. -/
theorem run_restOfLine (feed : '\n' ∉ text) (carriage : '\r' ∉ text) (unclosed : text.Unclosed)
    (ends : EndsEntry tail) (stands : cursor.rest = scan (text ++ tail)) :
    ∃ after, restOfLine cursor = .ok (Text.trim text) after ∧ after.rest = scan tail := by
  obtain ⟨broken, more, scanned, _⟩ := ends.scanned
  obtain ⟨rest, rfl⟩ := List.head?_eq_some_iff.mp ends.head
  have inside : ∀ token ∈ scan text, (token.kind != .lineBreak && token.kind != .closing) =
      true := by
    intro token mem
    simp [ne_lineBreak_of_mem_scan feed mem, ne_closing_of_mem_scan unclosed mem]
  have moved : cursor.toLineEnd = ⟨(scan text).reverse ++ cursor.passed, scan ('\n' :: rest)⟩ := by
    rw [Cursor.toLineEnd, Cursor.skipWhile, stands, scan_append_feed carriage,
      List.takeWhile_append_of_pos inside, List.dropWhile_append_of_pos inside, scanned]
    simp
  have taken : cursor.toLineEnd.textSince cursor.index = text := by
    rw [moved, Cursor.textSince, Cursor.index, Cursor.index, List.length_append, Nat.add_sub_cancel,
      List.take_left, List.reverse_reverse, textOf_scan]
  refine ⟨cursor.toLineEnd, ?_, by rw [moved]⟩
  rw [restOfLine, Read.run_get_bind, Read.run_bind_of_ok (Read.run_move _ _),
    Read.run_get_bind, taken]
  rfl

/-- A line that begins with a tag or closes the comment continues no description. -/
theorem continues_eq_false (ends : EndsEntry tail) (stands : cursor.rest = scan tail) :
    continues cursor = false := by
  obtain ⟨broken, more, scanned, first⟩ := ends.scanned
  have reached := Cursor.reaches_advance (stands.trans scanned) (by simp)
  rw [continues, Cursor.kind?_of_rest reached.rest]
  rcases first with first | first <;> rw [first, Bool.and_false]

theorem run_furtherLines (bound : Nat) (ends : EndsEntry tail) (stands : cursor.rest = scan tail) :
    furtherLines bound cursor = .ok [] cursor := by
  cases bound with
  | zero => rfl
  | succ bound =>
      rw [furtherLines, Read.run_get_bind, continues_eq_false ends stands,
        if_neg Bool.false_ne_true]
      rfl

theorem run_description (canonical : DescriptionIsCanonical text) (ends : EndsEntry tail)
    (stands : cursor.rest = scan (text ++ tail)) :
    ∃ after, description cursor = .ok (text, none) after ∧ after.rest = scan tail := by
  obtain ⟨after, run, behind⟩ := run_restOfLine (canonical.not_mem (by decide) (by decide))
    (canonical.not_mem (by decide) (by decide)) canonical.unclosed ends stands
  refine ⟨after, ?_, behind⟩
  rw [canonical.trim] at run
  rw [description, Read.run_bind_of_ok run]
  cases text with
  | nil => rfl
  | cons c more =>
      have collapsed : Text.join [' '] (Text.words (c :: more)) = c :: more := canonical.collapsed
      rw [List.isEmpty_cons, if_neg Bool.false_ne_true, Read.run_get_bind,
        Read.run_bind_of_ok (run_furtherLines _ ends behind)]
      simp only [List.flatMap_singleton, collapsed, Text.join, if_true]
      rfl

/-- A description lets the subject in front of it end. -/
theorem endsSubject_of_described (described : DescriptionIsCanonical text) (ends : EndsEntry tail) :
    EndsSubject ((if text.isEmpty then [] else ' ' :: text) ++ tail) ∧
      ((if text.isEmpty then [] else ' ' :: text) ++ tail).dropWhile isPadding = text ++ tail := by
  cases text with
  | nil =>
      have firm : firstKind? tail ≠ some .padding := by
        rw [ends.firstKind?]
        decide
      exact ⟨Or.inl ends, dropWhile_of_firstKind? firm⟩
  | cons c more =>
      have starts : isNameStart c = true := by
        rw [isNameStart, described.letter c rfl, Bool.true_or]
      have first : firstKind? (c :: more ++ tail) = some .name := by
        rw [List.cons_append, firstKind?_cons, piece_name starts]
      have firm : firstKind? (c :: more ++ tail) ≠ some .padding := by
        rw [first]
        decide
      exact ⟨Or.inr ⟨c :: more ++ tail, rfl, first⟩,
        (List.dropWhile_cons_of_pos rfl).trans (dropWhile_of_firstKind? firm)⟩

/-- A typed payload is read back from its written form. -/
theorem run_typedWithWording {given : Subject} (canonical : given.IsCanonical)
    (described : DescriptionIsCanonical text) (ends : EndsEntry tail)
    (stands : cursor.rest = scan ((Payload.typed given text).render ++ tail)) :
    ∃ after, typedWithWording given.kind cursor = .ok (.typed given text, none) after ∧
      after.rest = scan tail := by
  rw [render, Text.joinParts_concat canonical.exists_part, List.append_assoc] at stands
  obtain ⟨follows, skipped⟩ := endsSubject_of_described described ends
  obtain ⟨middle, found, reaches⟩ := run_subject canonical follows stands
  obtain ⟨after, ran, behind⟩ := run_description described ends (reaches.rest_eq skipped)
  refine ⟨after, ?_, behind⟩
  rw [typedWithWording, Read.run_bind_of_ok found, Read.run_bind_of_ok ran]
  rfl

end Grammar

end Payload

end DocComment
