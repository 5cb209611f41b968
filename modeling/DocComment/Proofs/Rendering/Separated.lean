import DocComment.Proofs.Reading.Tag

/-!
# The separator of a changed tag

Between the name of a changed tag and its payload stands padding of the source,
or a space where the source has none that fits.  A typed payload is always
separated from the name; another one may not be (`Tag.decorate_renderChanged`).
-/

namespace DocComment

open Token

namespace Separator

variable {text found : Text}

theorem isPadding_of_untyped? (run : untyped? text = some found) :
    ∀ c ∈ found, isPadding c = true := by
  have pads : ∀ c ∈ text.takeWhile isPadding, isPadding c = true :=
    fun c mem => List.mem_takeWhile_imp mem
  unfold untyped? at run
  split at run
  · cases run
    exact pads
  · split at run
    · cases run
      exact pads
    · dsimp only at run
      split at run
      · cases run
      · cases run
        exact fun c mem => pads c (List.mem_of_mem_dropLast mem)

/-- The longest part that fits is a part of the padding that is not empty. -/
theorem exists_of_longest? {named padding rest : Text} {length : Nat}
    (within : length ≤ padding.length)
    (run : longest? named padding rest length = some found) : found ≠ [] ∧ found <+: padding := by
  induction length with
  | zero => cases run
  | succ length ih =>
      rw [longest?] at run
      split at run
      · cases run
        refine ⟨List.ne_nil_of_length_pos ?_, List.take_prefix _ _⟩
        rw [List.length_take, Nat.lt_min]
        exact ⟨Nat.succ_pos _, Nat.lt_of_lt_of_le (Nat.succ_pos _) within⟩
      · exact ih (Nat.le_of_succ_le within) run

theorem isPadding_of_typed? {named : Option Text} (run : typed? named text = some found) :
    found ≠ [] ∧ ∀ c ∈ found, isPadding c = true := by
  have pads : ∀ c ∈ text.takeWhile isPadding, isPadding c = true :=
    fun c mem => List.mem_takeWhile_imp mem
  cases named with
  | none =>
      rw [typed?] at run
      split at run
      · cases run
      · next proper =>
          cases run
          exact ⟨fun empty => proper (List.isEmpty_iff.mpr empty), pads⟩
  | some named =>
      obtain ⟨proper, part⟩ := exists_of_longest? (Nat.le_refl _) run
      exact ⟨proper, fun c mem => pads c (part.subset mem)⟩

theorem exists_of_firstSuffix? {α : Type} {rule : Text → Option α} {answer : α}
    (run : Text.firstSuffix? rule text = some answer) : ∃ suffix, rule suffix = some answer := by
  induction text with
  | nil => exact ⟨[], run⟩
  | cons c rest ih =>
      rw [Text.firstSuffix?] at run
      split at run
      · next found => exact ⟨c :: rest, found.trans run⟩
      · exact ih run

variable {source : Text} {tag : Tag}

/-- The separator is padding, and a typed payload is separated by some. -/
theorem isPadding_of_ofTag (source : Text) (tag : Tag) :
    (∀ c ∈ ofTag source tag, isPadding c = true) ∧
      (tag.payload.kind.isTyped = true → ofTag source tag ≠ []) := by
  cases run : Text.firstSuffix? (behindName? tag) source with
  | none =>
      rw [ofTag, run, Option.getD_none]
      split
      · exact ⟨List.forall_mem_singleton.mpr rfl, fun _ => List.cons_ne_nil _ _⟩
      · next untyped => exact ⟨by simp, fun typed => absurd typed untyped⟩
  | some found =>
      rw [ofTag, run, Option.getD_some]
      obtain ⟨suffix, fits⟩ := exists_of_firstSuffix? run
      obtain ⟨rest, -, fits⟩ := Option.bind_eq_some_iff.mp fits
      split at fits
      · obtain ⟨proper, pads⟩ := isPadding_of_typed? fits
        exact ⟨pads, fun _ => proper⟩
      · next untyped => exact ⟨isPadding_of_untyped? fits, fun typed => absurd typed untyped⟩

end Separator

theorem decorate_of_unbroken {text : Text} (unbroken : '\n' ∉ text) : decorate text = text := by
  induction text with
  | nil => rfl
  | cons c text ih =>
      rw [decorate_cons (fun same => unbroken (same ▸ List.mem_cons_self)), ih]
      exact fun mem => unbroken (List.mem_cons_of_mem _ mem)

/-- A changed tag whose description is not written in another way is its name, the
separator and its payload. -/
theorem Tag.decorate_renderChanged {tag : Tag} (named : '\n' ∉ tag.name)
    (unworded : tag.wording = none) (unbroken : '\n' ∉ tag.payload.render)
    (head : ∃ c, tag.payload.render.head? = some c ∧ isBlank c = false) (source : Text) :
    decorate (tag.renderChanged source) =
      tag.name ++ Separator.ofTag source tag ++ tag.payload.render := by
  obtain ⟨c, head, black⟩ := head
  obtain ⟨more, written⟩ := List.head?_eq_some_iff.mp head
  have trimmed : Text.trimStart tag.payload.render = tag.payload.render := by
    rw [written, Text.trimStart, List.dropWhile_cons_of_neg (by simp [black])]
  have same : tag.renderChanged source =
      tag.name ++ Separator.ofTag source tag ++ tag.payload.render := by
    rw [renderChanged, trimmed, written]
    simp only [restoreWording, unworded]
  rw [same]
  refine decorate_of_unbroken ?_
  have pads := (Separator.isPadding_of_ofTag source tag).1
  intro feed
  rcases List.mem_append.mp feed with front | back
  · rcases List.mem_append.mp front with held | held
    · exact named held
    · exact absurd (pads _ held) (by decide)
  · exact unbroken back

end DocComment
