import DocComment.Proofs.Rendering.Callable
import DocComment.Proofs.Rendering.Markers
import DocComment.Proofs.Text.Trim

/-!
# What cleaning up changes

In a text without padding at the ends of its lines only two things are cleaned
up: the padding behind the word that opens a callable, and the place of the
last closing marker (`normalise_eq`).
-/

namespace DocComment

/-- No line of the text ends in padding. -/
def Text.Tidy (text : Text) : Prop :=
  ∀ front c back, text = front ++ c :: back → isPadding c = true → Cleanup.isLineEnd back = false

namespace Text.Tidy

variable {first second : Text}

theorem nil : Tidy [] := by
  intro front c back split
  simp at split

/-- Two texts are tidy together when no padding at the end of the first stands at a line end. -/
theorem append
    (inner : ∀ front c back, first = front ++ c :: back → isPadding c = true → back ≠ [] →
      Cleanup.isLineEnd back = false)
    (seam : ∀ front c, first = front ++ [c] → isPadding c = true →
      Cleanup.isLineEnd second = false)
    (other : Tidy second) : Tidy (first ++ second) := by
  intro front c back split padding
  rcases List.append_eq_append_iff.mp split with ⟨more, rfl, behind⟩ | ⟨more, whole, behind⟩
  · exact other more c back behind padding
  · cases more with
    | nil => exact other [] c back behind.symm padding
    | cons d more =>
        obtain ⟨rfl, rfl⟩ := List.cons.inj behind
        cases more with
        | nil => exact seam front c whole padding
        | cons d more => exact inner front c (d :: more) whole padding (List.cons_ne_nil d more)

end Text.Tidy

namespace Cleanup

variable {text : Text}

theorem starPadding_eq_none (tidy : text.Tidy) {part : Text} (ends : part <:+ text) :
    starPadding part = none := by
  unfold starPadding
  split
  next c rest =>
    dsimp only
    split
    next fits =>
      simp only [Bool.and_eq_true] at fits
      obtain ⟨⟨_, proper⟩, lineEnd⟩ := fits
      have nonempty : rest.takeWhile isPadding ≠ [] := by simpa using proper
      obtain ⟨front, rfl⟩ := ends
      have last := List.dropLast_concat_getLast nonempty
      have padding := List.all_eq_true.mp List.all_takeWhile _ (List.getLast_mem nonempty)
      have inside := tidy (front ++ c :: '*' :: (rest.takeWhile isPadding).dropLast)
        ((rest.takeWhile isPadding).getLast nonempty) (rest.dropWhile isPadding) ?_ padding
      · rw [lineEnd] at inside
        cases inside
      · conv_lhs => rw [← List.takeWhile_append_dropWhile (p := isPadding) (l := rest), ← last]
        simp
    next => rfl
  next => rfl

theorem normalise_eq (tidy : text.Tidy) : normalise text = closeOnOwnLine (tightened text) := by
  rw [normalise, Text.substituteAll_eq_self fun part ends => starPadding_eq_none tidy ends]
  rfl

/-! ## The closing marker -/

theorem mem_of_mem_lastLine {front back : Text} {c : Char}
    (mem : c ∈ lastLine (front ++ '\n' :: back)) : c ∈ back := by
  rw [lastLine, List.mem_reverse, List.reverse_append, List.reverse_cons, List.append_assoc] at mem
  rcases Classical.em (∃ d ∈ back.reverse, (d != '\n') = false) with ⟨d, inside, feed⟩ | none
  · have short : ((back.reverse ++ (['\n'] ++ front.reverse)).takeWhile (· != '\n')) =
        back.reverse.takeWhile (· != '\n') := by
      rw [List.takeWhile_append]
      split
      next full =>
        have all := (List.takeWhile_eq_self_iff.mp
          ((List.takeWhile_sublist _).eq_of_length full)) d inside
        rw [feed] at all
        cases all
      next => rfl
    rw [short] at mem
    exact List.mem_reverse.mp ((List.takeWhile_sublist _).subset mem)
  · have all : ∀ d ∈ back.reverse, (d != '\n') = true := by
      intro d inside
      by_contra feed
      exact none ⟨d, inside, by simpa using feed⟩
    rw [List.takeWhile_append_of_pos all, List.singleton_append,
      List.takeWhile_cons_of_neg (by decide), List.append_nil] at mem
    exact List.mem_reverse.mp mem

/-- A closing marker with nothing but blanks behind it. -/
def IsEnding (ending : Text) : Prop :=
  ∃ behind, ending = closer ++ behind ∧ ∀ c ∈ behind, isBlank c = true

/-- Whether the closing marker at the end of a text shares its line, and not the only one. -/
def MarkerMoves (text : Text) : Prop :=
  ∃ before ending, text = before ++ ending ∧ IsEnding ending ∧ '\n' ∈ text ∧
    Text.isAllBlank (lastLine before) = false

section Ending

variable {ending : Text} (ends : IsEnding ending)
include ends

theorem splitLast?_ending :
    ∃ behind, ending = closer ++ behind ∧
      ∀ before, Text.splitLast? closer (before ++ ending) = some (before, behind) := by
  obtain ⟨behind, rfl, blank⟩ := ends
  have absent : '*' ∉ ['/'] ++ behind := by
    intro mem
    rcases List.mem_append.mp mem with slash | mem
    · cases List.mem_singleton.mp slash
    · cases blank '*' mem
  exact ⟨behind, rfl, fun before => Text.splitLast?_append absent before⟩

theorem markerMoves_append {before : Text} :
    MarkerMoves (before ++ ending) ↔
      '\n' ∈ before ++ ending ∧ Text.isAllBlank (lastLine before) = false := by
  constructor
  · rintro ⟨front, other, same, closes, broken, black⟩
    obtain ⟨behind, _, found⟩ := splitLast?_ending ends
    obtain ⟨_, _, again⟩ := splitLast?_ending closes
    have here := found before
    rw [same, again front] at here
    cases here
    exact ⟨broken, black⟩
  · exact fun moves => ⟨before, ending, rfl, ends, moves⟩

theorem closeOnOwnLine_append (before : Text) :
    closeOnOwnLine (before ++ ending) =
      if '\n' ∈ before ++ ending ∧ Text.isAllBlank (lastLine before) = false then
        Text.trimEnd before ++ (['\n', ' '] ++ ending)
      else before ++ ending := by
  obtain ⟨behind, split, found⟩ := splitLast?_ending ends
  rw [closeOnOwnLine, found before]
  by_cases broken : '\n' ∈ before ++ ending
  · rw [if_pos (List.contains_iff_mem.mpr broken)]
    dsimp only
    cases Text.isAllBlank (lastLine before) with
    | true => simp
    | false =>
        rw [if_neg Bool.false_ne_true, if_pos ⟨broken, rfl⟩, split]
        simp only [List.append_assoc]
  · rw [if_neg fun feed => broken (List.contains_iff_mem.mp feed), if_neg fun both => broken both.1]

/-- A closing marker that is moved takes the blanks in front of it away. -/
theorem closeOnOwnLine_of_moves {before : Text} (moves : MarkerMoves (before ++ ending)) :
    closeOnOwnLine (before ++ ending) = Text.trimEnd before ++ (['\n', ' '] ++ ending) := by
  rw [closeOnOwnLine_append ends, if_pos ((markerMoves_append ends).mp moves)]

theorem closeOnOwnLine_of_stays {before : Text} (stays : ¬ MarkerMoves (before ++ ending)) :
    closeOnOwnLine (before ++ ending) = before ++ ending := by
  rw [closeOnOwnLine_append ends, if_neg fun moves => stays ((markerMoves_append ends).mpr moves)]

/-- A marker does not move when only blanks stand between it and a line feed. -/
theorem not_markerMoves_of_blank {front behind : Text} (broken : '\n' ∈ behind)
    (blank : ∀ c ∈ behind, isBlank c = true) : ¬ MarkerMoves (front ++ behind ++ ending) := by
  rw [markerMoves_append ends]
  rintro ⟨_, black⟩
  obtain ⟨head, rest, rfl⟩ := List.append_of_mem broken
  have white : Text.isAllBlank (lastLine (front ++ (head ++ '\n' :: rest))) = true := by
    rw [Text.isAllBlank, List.all_eq_true]
    intro c mem
    rw [← List.append_assoc] at mem
    exact blank c (List.mem_append_right _ (List.mem_cons_of_mem _ (mem_of_mem_lastLine mem)))
  rw [white] at black
  cases black

/-- What stands in front of the last closing marker is kept, up to blanks at its end. -/
theorem infix_closeOnOwnLine {front slice behind : Text}
    (guarded : ¬ Text.EndsInBlank slice ∨ '\n' ∈ behind ∨
      ¬ MarkerMoves (front ++ slice ++ behind ++ ending)) :
    slice <:+: closeOnOwnLine (front ++ slice ++ behind ++ ending) := by
  by_cases moves : MarkerMoves (front ++ slice ++ behind ++ ending)
  · have kept : slice <:+: Text.trimEnd (front ++ slice ++ behind) := by
      rcases guarded with firm | broken | stays
      · exact Text.infix_trimEnd_of_firm firm
      · by_cases blank : ∀ c ∈ behind, isBlank c = true
        · exact absurd moves (not_markerMoves_of_blank ends broken blank)
        · simp only [not_forall, Bool.not_eq_true] at blank
          obtain ⟨c, mem, black⟩ := blank
          rw [Text.trimEnd_append_of_not_blank mem black]
          exact ⟨front, Text.trimEnd behind, rfl⟩
      · exact absurd moves stays
    rw [closeOnOwnLine_of_moves ends moves]
    exact kept.trans (List.prefix_append _ _).isInfix
  · rw [closeOnOwnLine_of_stays ends moves]
    exact ⟨front, behind ++ ending, by simp⟩

/-- A part that ends in front of a moved closing marker loses the blanks at its end. -/
theorem suffix_closeOnOwnLine {front slice : Text}
    (moves : MarkerMoves (front ++ slice ++ ending)) :
    Text.trimEnd slice ++ (['\n', ' '] ++ ending) <:+
      closeOnOwnLine (front ++ slice ++ ending) := by
  obtain ⟨more, whole⟩ := Text.trimEnd_suffix_append front slice
  rw [closeOnOwnLine_of_moves ends moves, ← whole]
  exact ⟨more, by simp⟩

/-! ## Both together -/

theorem tightened_append_ending (text : Text) :
    tightened (text ++ ending) = tightened text ++ ending := by
  obtain ⟨behind, rfl, blank⟩ := ends
  have without : ∀ c ∈ '/' :: behind, c ≠ 'c' := by
    rintro c mem rfl
    rcases List.mem_cons.mp mem with slash | mem
    · cases slash
    · cases blank _ mem
  have rest : tightened ('/' :: behind ++ []) = '/' :: behind ++ [] :=
    tightened_append_of_front without
  have divided : tightened (text ++ '*' :: '/' :: behind) =
      tightened text ++ '*' :: tightened ('/' :: behind) := tightened_append_of_last (by decide)
  rw [List.append_nil] at rest
  rw [rest] at divided
  exact divided

/-- Moving the closing marker brings no padding back. -/
theorem not_hasPaddedCallable_cleaned (before : Text) :
    ¬ HasPaddedCallable (closeOnOwnLine (tightened (before ++ ending))) := by
  by_cases moves : MarkerMoves (tightened (before ++ ending))
  · rw [tightened_append_ending ends] at moves ⊢
    rw [closeOnOwnLine_of_moves ends moves]
    have short : Text.trimEnd (tightened before) <:+: tightened before :=
      (List.rdropWhile_prefix isBlank _).isInfix
    have clean : ¬ HasPaddedCallable (Text.trimEnd (tightened before)) := fun padded =>
      not_hasPaddedCallable before (padded.of_isInfix short)
    have whole : tightened (Text.trimEnd (tightened before) ++ (['\n', ' '] ++ ending)) =
        Text.trimEnd (tightened before) ++ (['\n', ' '] ++ ending) := by
      rw [← List.append_assoc, tightened_append_ending ends]
      have divided : tightened (Text.trimEnd (tightened before) ++ '\n' :: [' ']) =
          tightened (Text.trimEnd (tightened before)) ++ '\n' :: tightened [' '] :=
        tightened_append_of_last (by decide)
      rw [divided, tightened_eq_self clean]
      simp only [List.append_assoc]
      rfl
    rw [← whole]
    exact not_hasPaddedCallable _
  · rw [tightened_append_ending ends] at moves ⊢
    rw [closeOnOwnLine_of_stays ends moves, ← tightened_append_ending ends]
    exact not_hasPaddedCallable _

/-- A slice between characters that stand in no match is cleaned up by itself. -/
theorem tightened_slice {front padding slice behind : Text} {c : Char} (divide : divides c = true)
    (all : ∀ d ∈ padding, isPadding d = true)
    (head : ∀ d, behind.head? = some d → divides d = true) :
    tightened (front ++ c :: padding ++ slice ++ behind ++ ending) =
      tightened front ++ c :: padding ++ tightened slice ++ tightened behind ++ ending := by
  have without : ∀ d ∈ padding, d ≠ 'c' := by
    rintro d mem rfl
    cases all _ mem
  have lead : tightened (front ++ c :: padding ++ slice) =
      tightened front ++ c :: padding ++ tightened slice := by
    rw [List.append_assoc, List.cons_append, tightened_append_of_last divide,
      tightened_append_of_front without]
    simp
  rw [tightened_append_ending ends, tightened_append_of_head head, lead]

/-- The opening of a comment is not cleaned up. -/
theorem opens_cleaned {before : Text} (opens : before.Opens) :
    (closeOnOwnLine (tightened (before ++ ending))).Opens := by
  obtain ⟨padding, rest, all, rfl⟩ := opens
  have without : ∀ d ∈ padding ++ opener, d ≠ 'c' := by
    rintro d mem rfl
    rcases List.mem_append.mp mem with pad | marker
    · cases all _ pad
    · revert marker
      decide
  rw [tightened_append_ending ends, ← List.append_assoc, tightened_append_of_front without]
  by_cases moves : MarkerMoves (padding ++ opener ++ tightened rest ++ ending)
  · rw [closeOnOwnLine_of_moves ends moves]
    have firm : ¬ Text.EndsInBlank (padding ++ opener) :=
      Text.not_endsInBlank_append (by decide) (Text.not_endsInBlank_of_getLast? rfl rfl) padding
    rw [Text.trimEnd_append_of_firm firm]
    exact ⟨padding, _, all, by simp only [List.append_assoc]; rfl⟩
  · rw [closeOnOwnLine_of_stays ends moves]
    exact ⟨padding, _, all, by simp only [List.append_assoc]; rfl⟩

theorem closer_infix_closeOnOwnLine (before : Text) :
    closer <:+: closeOnOwnLine (before ++ ending) := by
  have closes : closer <:+: ending := by
    obtain ⟨behind, rfl, _⟩ := ends
    exact (List.prefix_append _ _).isInfix
  by_cases moves : MarkerMoves (before ++ ending)
  · rw [closeOnOwnLine_of_moves ends moves, ← List.append_assoc]
    exact closes.trans (List.suffix_append _ _).isInfix
  · rw [closeOnOwnLine_of_stays ends moves]
    exact closes.trans (List.suffix_append _ _).isInfix

/-- Of an edited comment with both markers and no padding at line ends, two things
are cleaned up. -/
theorem finish_edited {before : Text} (opens : before.Opens) (tidy : (before ++ ending).Tidy) :
    finish true false (before ++ ending) = closeOnOwnLine (tightened (before ++ ending)) := by
  have closes : closer <:+: closeOnOwnLine (tightened (before ++ ending)) := by
    rw [tightened_append_ending ends]
    exact closer_infix_closeOnOwnLine ends _
  rw [finish, if_neg (by simp [opens.ne_nil]), if_pos rfl, normalise_eq tidy]
  exact completeMarkers_of_closes (opens_cleaned ends opens) closes

end Ending

end Cleanup

end DocComment
