import DocComment.Proofs.Changed
import DocComment.Proofs.Rendering.Retyped
import DocComment.Proofs.Text.Words

/-!
# Descriptions that are put back as they were written

A description that was recorded as it was written has the same words as the one in the payload
(`Dialect.rewords_of_read`).  When the tag gets another type it is put back over these words,
wherever they are found first.  So it comes to stand in its own place if and only if the words do
not fit in front of that, in the name, the separator, the subject or across its end
(`worded_of_retyped_iff`).
-/

namespace DocComment

open Token

/-! ## Descriptions that were read -/

namespace Payload.Grammar

variable {cursor after : Cursor}

/-- What is recorded of a description has its words. -/
theorem rewords_of_description {found : Text × Option Text} {wording : Text}
    (run : description cursor = .ok found after)
    (worded : found.2 = some wording) : Text.Rewords wording found.1 := by
  have begins := head?_of_description run wording worded
  obtain ⟨first, middle, -, run⟩ := Read.bind_eq_ok.mp run
  split at run
  next =>
    cases run
    cases worded
  next =>
    rw [Read.run_get_bind, Read.bind_eq_ok] at run
    obtain ⟨others, _, -, finished⟩ := run
    cases finished
    dsimp only at worded begins ⊢
    split at worded
    next => cases worded
    next differs =>
      cases worded
      have areWords : Text.AreWords ((first :: others).flatMap Text.words) := by
        intro word mem
        obtain ⟨line, -, within⟩ := List.mem_flatMap.mp mem
        exact Text.areWords_words line word within
      refine ⟨?_, ?_, begins, differs⟩
      · rw [Text.collapse, Text.words_join areWords]
      · rw [Text.black_join (List.forall_mem_singleton.mpr rfl),
          Text.black_join (List.forall_mem_singleton.mpr rfl), List.flatMap_assoc]
        refine List.flatMap_congr fun line _ => ?_
        rw [← Text.flatten_words, List.flatMap_def]
        refine congrArg List.flatten
          ((List.map_congr_left fun word mem => ?_).trans (List.map_id _)).symm
        exact Text.black_eq_self (Text.areWords_words line word mem).2

end Payload.Grammar

/-- The description of a tag that was read has the words of what was recorded of it. -/
theorem Dialect.rewords_of_entry {before after : Cursor} {tag : Tag} {subject : Subject}
    {description wording : Text} (run : entry plain before = .ok (.tag tag) after)
    (typed : tag.payload = .typed subject description)
    (worded : tag.wording = some wording) : Text.Rewords wording description := by
  obtain ⟨-, middle, -, described⟩ := subject_of_entry run typed
  exact Payload.Grammar.rewords_of_description described worded

/-! ## Putting a wording back -/

namespace Tag

variable {tag : Tag} {front description wording : Text}

/-- In front of where the words are found nothing changes. -/
theorem restoreWording_append {rest : Text}
    (unfound : ∀ wording description, tag.wording = some wording →
      tag.payload.description? = some description →
      Text.Unfound (Text.words description) front rest) :
    tag.restoreWording (front ++ rest) = front ++ tag.restoreWording rest := by
  unfold restoreWording
  split
  next wording description worded described =>
    split
    next => rfl
    next =>
      rw [Text.splitFirstBy?_append (unfound wording description worded described)]
      cases Text.splitFirstBy? (afterWords? (Text.words description)) rest with
      | none => rfl
      | some found => simp
  next => rfl

/-- A wording comes to stand in the place of its description just when the words
are not found in front of it. -/
theorem restoreWording_iff (rewords : Text.Rewords wording description)
    (described : tag.payload.description? = some description)
    (worded : tag.wording = some wording) :
    tag.restoreWording (front ++ description) = front ++ wording ↔
      Text.Unfound (Text.words description) front description := by
  have fits : afterWords? (Text.words description) description = some [] := by
    have found := Text.afterWords?_join (Text.areWords_words description)
    rwa [← Text.collapse, rewords.collapsed] at found
  have proper : description.isEmpty = false := by
    obtain ⟨c, -, head, -⟩ := rewords.begins
    obtain ⟨more, rfl⟩ := List.head?_eq_some_iff.mp head
    rfl
  unfold restoreWording
  rw [worded, described]
  dsimp only
  rw [proper, if_neg Bool.false_ne_true]
  constructor
  · rintro restored middle ⟨before, rfl⟩ inside
    by_contra found
    obtain ⟨start, behind, first, short⟩ :=
      @Text.exists_splitFirstBy? (middle ++ description) _ before found
    rw [← List.append_assoc] at first
    rw [first] at restored
    obtain ⟨gap, rfl⟩ := short
    obtain ⟨fitting, whole, fits⟩ := Text.eq_append_of_splitFirstBy? first
    simp only [List.append_assoc] at restored whole
    have moved := List.append_cancel_left restored
    rw [← List.append_cancel_left whole, ← List.append_assoc] at fits
    rw [← List.append_assoc] at moved
    exact rewords.ne_of_found (List.append_ne_nil_of_right_ne_nil gap inside) fits moved
  · intro unfound
    rw [Text.splitFirstBy?_append unfound, Text.splitFirstBy?_of_fits fits]
    simp

theorem renderChanged_eq {source : Text} (proper : Text.trimStart tag.payload.render ≠ []) :
    tag.renderChanged source =
      tag.restoreWording
        (tag.name ++ Separator.ofTag source tag ++ Text.trimStart tag.payload.render) := by
  obtain ⟨c, more, written⟩ := List.exists_cons_of_ne_nil proper
  rw [renderChanged, written]

end Tag

/-! ## Tags that get another type -/

theorem Subject.isCanonical_returned {type : TypeExpr} (canonical : type.isCanonical = true) :
    (Subject.returned type).IsCanonical where
  type _ present := by cases present; exact canonical
  dollar kind := by rcases kind with kind | kind <;> cases kind
  name _ named := by cases named
  proper kind := by cases kind

/-- A canonical type begins with a character that is not blank. -/
theorem TypeExpr.exists_head_render {type : TypeExpr} (canonical : type.isCanonical = true) :
    ∃ c, type.render.head? = some c ∧ isBlank c = false := by
  obtain ⟨c, head, ordinary⟩ :=
    Payload.Grammar.exists_head_of_subject (Subject.isCanonical_returned canonical)
  rw [Subject.parts, Payload.Grammar.joinParts_singleton] at head
  exact ⟨c, head, (isOrdinary_iff.mp ordinary).1⟩

theorem Subject.exists_parts_withType (subject : Subject) (type : TypeExpr) :
    ∃ others, (subject.withType type).parts = type.render :: others := by
  cases subject with
  | param | returned | var | thrown => exact ⟨_, rfl⟩

namespace Payload

variable {subject : Subject} {type : TypeExpr} (canonical : type.isCanonical = true)
include canonical

/-- A description stands behind its subject and a space. -/
theorem render_retyped {description : Text} (proper : description ≠ []) :
    (Payload.typed (subject.withType type) description).render =
      (Payload.typed (subject.withType type) []).render ++ ' ' :: description := by
  obtain ⟨c, head, -⟩ := TypeExpr.exists_head_render canonical
  obtain ⟨others, parts⟩ := subject.exists_parts_withType type
  have full : ∃ part ∈ (subject.withType type).parts, part ≠ [] := by
    refine ⟨type.render, parts ▸ List.mem_cons_self, ?_⟩
    rintro empty
    rw [empty] at head
    cases head
  rw [render, render, Text.joinParts_concat full, Text.joinParts_concat full,
    if_neg (by simpa using proper)]
  simp

/-- A payload with a canonical type begins with the type. -/
theorem trimStart_retyped (description : Text) :
    Text.trimStart (Payload.typed (subject.withType type) description).render =
      (Payload.typed (subject.withType type) description).render := by
  obtain ⟨c, head, dark⟩ := TypeExpr.exists_head_render canonical
  obtain ⟨others, parts⟩ := subject.exists_parts_withType type
  obtain ⟨more, written⟩ := List.head?_eq_some_iff.mp head
  have begins : (Payload.typed (subject.withType type) description).render.head? = some c := by
    rw [render, parts, Text.joinParts, List.cons_append,
      List.filter_cons_of_pos (by simp [written])]
    exact Text.head?_join head _
  obtain ⟨rest, whole⟩ := List.head?_eq_some_iff.mp begins
  rw [whole, Text.trimStart, List.dropWhile_cons_of_neg (by simp [dark])]

end Payload

/--
A tag that was read with a recorded description gets another type.  The description comes to stand
as it was written behind the new subject and a space, just when its words are not found in front.
-/
theorem worded_of_retyped_iff {text : Text} {document : Document} {place : Nat} {tag : Tag}
    (run : Dialect.plain.read text = .ok document) (stands : document.comment.entry? place = some (.tag tag))
    {subject : Subject} {description wording : Text} (typed : tag.payload = .typed subject description)
    (worded : tag.wording = some wording) {type : TypeExpr} (canonical : type.isCanonical = true) :
    ∃ changed, tag.changePayload? (Payload.withType? type) = some changed ∧
      (changed.renderChanged document.source =
          tag.name ++ Separator.ofTag document.source changed ++ (Payload.typed (subject.withType type) []).render ++
            ' ' :: wording ↔
        Text.Unfound (Text.words description)
          (tag.name ++ Separator.ofTag document.source changed ++ (Payload.typed (subject.withType type) []).render ++ [' '])
          description) := by
  obtain ⟨span, after, stood⟩ := Dialect.exists_stood Dialect.plain_onlyVerbatim run stands
  obtain ⟨before, tokens, taken⟩ := stood.run
  have rewords := Dialect.rewords_of_entry taken typed worded
  have proper : description ≠ [] := by
    obtain ⟨c, -, head, -⟩ := rewords.begins
    exact List.ne_nil_of_mem (List.mem_of_head? head)
  have rendered := @Payload.render_retyped subject type canonical description proper
  let changed := tag.withPayload (.typed (subject.withType type) description)
  refine ⟨changed, ?_, ?_⟩
  · rw [Tag.changePayload?, typed]
    rfl
  · have written : changed.renderChanged document.source =
        changed.restoreWording (tag.name ++ Separator.ofTag document.source changed ++
          (Payload.typed (subject.withType type) []).render ++ [' '] ++ description) := by
      have trimmed : Text.trimStart changed.payload.render = _ := Payload.trimStart_retyped canonical description
      rw [Tag.renderChanged_eq (by rw [trimmed, rendered]; simp), trimmed, rendered]
      simp [changed, Tag.withPayload]
    rw [written, ← @Tag.restoreWording_iff changed _ _ _ rewords rfl worded, List.append_assoc _ [' '] wording, List.singleton_append]

/-- A description with two spaces is put back behind another type. -/
theorem worded_of_retyped_spaces :
    ∃ document tag changed, Dialect.plain.read "/** @return int the  count */".toList = .ok document ∧
      document.comment.entry? 0 = some (.tag tag) ∧
      tag.changePayload? (Payload.withType? (.named "bool".toList)) = some changed ∧
      changed.renderChanged document.source = "@return bool the  count".toList := by
  let tag : Tag :=
    ⟨"@return".toList, .typed (.returned (.named "int".toList)) "the count".toList, some ⟨2, 7⟩, some "the  count".toList⟩
  have run : Dialect.plain.read "/** @return int the  count */".toList =
      .ok (.ofComment (.ofEntries [.tag tag]) (scan "/** @return int the  count */".toList)) := rfl
  obtain ⟨changed, change, restored⟩ :=
    @worded_of_retyped_iff _ _ 0 tag run rfl _ _ _ rfl rfl (.named "bool".toList) (by decide)
  cases change
  exact ⟨_, tag, _, run, rfl, rfl, restored.mpr (by decide)⟩

/-- The words of the description are found in the type, and the description is put there. -/
theorem not_worded_of_retyped_twice :
    ∃ document tag changed, Dialect.plain.read "/** @return string int  int */".toList = .ok document ∧
      document.comment.entry? 0 = some (.tag tag) ∧ tag.wording = some "int  int".toList ∧
      tag.changePayload? (Payload.withType? (.named "int".toList)) = some changed ∧
      changed.renderChanged document.source = "@return int  int int".toList ∧
      changed.renderChanged document.source ≠
        "@return".toList ++ Separator.ofTag document.source changed ++
          (Payload.typed (.returned (.named "int".toList)) []).render ++ ' ' :: "int  int".toList := by
  let tag : Tag :=
    ⟨"@return".toList, .typed (.returned (.named "string".toList)) "int int".toList, some ⟨2, 7⟩, some "int  int".toList⟩
  have run : Dialect.plain.read "/** @return string int  int */".toList =
      .ok (.ofComment (.ofEntries [.tag tag]) (scan "/** @return string int  int */".toList)) := rfl
  exact ⟨_, tag, _, run, rfl, rfl, rfl, rfl, by decide⟩

end DocComment
