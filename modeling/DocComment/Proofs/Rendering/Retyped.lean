import DocComment.Proofs.Reading.Coverage
import DocComment.Proofs.Rendering.InOrder
import DocComment.Proofs.Text.Closer

/-!
# How a tag is written when its type was changed

A tag that was read begins with its marker, and its description as it was
written begins like the description in its payload.  So the marker stays the
first character when the tag is written with another type
(`head?_renderChanged`).
-/

namespace DocComment

open Token

namespace Text

variable {text : Text} {c : Char}

theorem head?_decorate (head : text.head? = some c) (other : c ≠ '\n') :
    (decorate text).head? = some c := by
  obtain ⟨rest, rfl⟩ := List.head?_eq_some_iff.mp head
  rw [decorate, replaceChar, List.flatMap_cons, if_neg other]
  rfl

/-- What begins with words begins like the first of them. -/
theorem head?_of_afterWords? {word behind : Text} {others : List Text}
    (fits : afterWords? (word :: others) text = some behind) (head : word.head? = some c) :
    text.head? = some c := by
  have begins : ∃ rest, after? word text = some rest := by
    cases others with
    | nil => exact ⟨behind, fits⟩
    | cons =>
        obtain ⟨rest, found, _⟩ := Option.bind_eq_some_iff.mp fits
        exact ⟨rest, found⟩
  obtain ⟨rest, found⟩ := begins
  rw [eq_append_of_after? found, List.head?_append, head]
  rfl

end Text

namespace Tag

variable {tag : Tag}

/-- A description as it was written begins like the description in the payload, and
not with a blank. -/
def Worded (tag : Tag) : Prop :=
  ∀ wording, tag.wording = some wording → ∃ description c,
    tag.payload.description? = some description ∧ isBlank c = false ∧
      description.head? = some c ∧ wording.head? = some c

/-- Putting a description back as it was written does not change how a tag begins. -/
theorem head?_restoreWording (worded : tag.Worded) (rendered : Text) :
    (tag.restoreWording rendered).head? = rendered.head? := by
  unfold restoreWording
  split
  next wording description written described =>
    obtain ⟨_, c, same, black, head, begins⟩ := worded wording written
    obtain rfl := Option.some.inj (described.symm.trans same)
    split
    next => rfl
    next =>
      split
      next before behind found =>
        obtain ⟨fitting, rfl, fits⟩ := Text.eq_append_of_splitFirstBy? found
        cases before with
        | nil =>
            obtain ⟨word, others, split, first⟩ := Text.exists_words head black
            rw [split] at fits
            rw [List.nil_append, List.nil_append, List.head?_append, begins,
              Text.head?_of_afterWords? fits first]
            rfl
        | cons => rfl
      next => rfl
  next => rfl

theorem head?_renderChanged (source : Text) (worded : tag.Worded) {c : Char}
    (named : tag.name.head? = some c) : (tag.renderChanged source).head? = some c := by
  unfold renderChanged
  split
  next => exact named
  next =>
    rw [head?_restoreWording worded, List.append_assoc, List.head?_append, named]
    rfl

end Tag

/-! ## Tags that were read -/

namespace Payload.Grammar

variable {cursor after : Cursor}

theorem head?_of_description {found : Text × Option Text}
    (run : description cursor = .ok found after) :
    ∀ wording, found.2 = some wording → ∃ c, isBlank c = false ∧ found.1.head? = some c ∧
      wording.head? = some c := by
  obtain ⟨first, middle, taken, run⟩ := Read.bind_eq_ok.mp run
  cases taken
  split at run
  next =>
    cases run
    exact fun _ none => nomatch none
  next nonempty =>
    rw [Read.run_get_bind, Read.bind_eq_ok] at run
    obtain ⟨others, _, _, finished⟩ := run
    cases finished
    intro wording same
    dsimp only at same
    split at same
    next => cases same
    next =>
      cases same
      obtain ⟨c, head⟩ := Option.ne_none_iff_exists'.mp
        (mt List.head?_eq_none_iff.mp (mt List.isEmpty_iff.mpr nonempty))
      have black := Text.head?_trim head
      obtain ⟨word, more, split, begins⟩ := Text.exists_words head black
      refine ⟨c, black, ?_, Text.head?_join head others⟩
      rw [List.flatMap_cons, split]
      exact Text.head?_join begins _

end Payload.Grammar

namespace Dialect

variable {dialect : Dialect} {cursor after : Cursor}

/-- Only a typed payload comes with a description as it was written. -/
theorem head?_of_payload {tag : Text} {found : Payload × Option Text}
    (run : payload dialect tag cursor = .ok found after) :
    ∀ wording, found.2 = some wording → ∃ description c, found.1.description? = some description ∧
      isBlank c = false ∧ description.head? = some c ∧ wording.head? = some c := by
  obtain ⟨result, middle, ran, run⟩ := Read.bind_eq_ok.mp run
  cases result with
  | none =>
      obtain ⟨generic, behind, read, finished⟩ := Read.bind_eq_ok.mp run
      cases finished
      exact fun _ none => nomatch none
  | some specific =>
      cases run
      unfold specificPayload at ran
      cases claimed : dialect.rule? tag with
      | some rule =>
          rw [claimed] at ran
          obtain ⟨taken, _, _, finished⟩ := Read.bind_eq_ok.mp ran
          cases taken with
          | none => cases finished
          | some payload =>
              cases finished
              exact fun _ none => nomatch none
      | none =>
          rw [claimed] at ran
          cases typed : Subject.Kind.ofTagName? tag with
          | some kind =>
              rw [typed] at ran
              obtain ⟨subject, _, _, read⟩ := Read.bind_eq_ok.mp (Read.attempt_eq_some ran)
              obtain ⟨⟨words, wording⟩, _, described, finished⟩ := Read.bind_eq_ok.mp read
              cases finished
              intro wording same
              obtain ⟨c, black, head, begins⟩ :=
                Payload.Grammar.head?_of_description described wording same
              exact ⟨_, c, rfl, black, head, begins⟩
          | none =>
              rw [typed] at ran
              cases ran

/-- A tag that was read begins with its marker, and its description as it was written. -/
theorem written_of_wasRead {text : Text} {tag : Tag}
    (read : dialect.WasRead (scan text) (.tag tag)) :
    tag.name.head? = some '@' ∧ tag.Worded := by
  obtain ⟨before, behind, tokens, ⟨stands, run⟩ | run⟩ := read
  · obtain ⟨name, _, content, _, named, taken, same, _⟩ := tag_eq_ok run
    cases same
    refine ⟨?_, head?_of_payload taken⟩
    have marker : before.text.head? = some '@' := by
      obtain ⟨token, first, kind⟩ := Option.map_eq_some_iff.mp (beq_iff_eq.mp stands)
      obtain ⟨rest, whole⟩ := List.head?_eq_some_iff.mp first
      have mem : token ∈ scan text := by
        rw [← tokens, Cursor.tokens, whole]
        exact List.mem_append_right _ List.mem_cons_self
      rw [Cursor.text, whole]
      exact (isPiece_of_mem_scan mem (by rw [kind]; decide)).head?_of_tag kind
    rcases tagName_eq_ok named with ⟨rfl, _⟩ | ⟨_, rfl, _⟩
    · exact marker
    · rw [List.head?_append, marker]
      rfl
  · obtain ⟨_, _, _, same⟩ := prose_eq_ok run
    cases same

end Dialect

end DocComment
