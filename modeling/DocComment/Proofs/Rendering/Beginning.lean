import DocComment.Proofs.Rendering.Callable
import DocComment.Proofs.Rendering.Markers
import DocComment.Proofs.Text.Closer

/-!
# Cleaning up keeps the markers

A text that begins with an opening marker, and whose opening marker is no part
of a closing one, still has both markers after it was cleaned up, on several
lines or on one (`marked_finish`).
-/

namespace DocComment

namespace Text

/-! ## Texts that begin -/

/-- A text that begins with an opening marker behind padding, which no slash turns
into a closing one. -/
def Begins (text : Text) : Prop :=
  ∃ padding rest : Text, (∀ c ∈ padding, isPadding c = true) ∧
    text = padding ++ (Cleanup.opener ++ rest) ∧ rest.head? ≠ some '/'

theorem Begins.opens {text : Text} (begins : text.Begins) : text.Opens := by
  obtain ⟨padding, rest, blank, split, _⟩ := begins
  exact ⟨padding, rest, blank, split⟩

/-- A text with an opening marker at its beginning and a closing one. -/
structure Marked (text : Text) : Prop where
  opens : text.Opens
  closes : Cleanup.closer <:+: text

/-! ## Substituting and splitting -/

variable {needle text : Text}

/-- A rule that keeps the first character of what it replaces keeps the first
character of a text. -/
theorem head?_substituteAll {rule : Text → Option (Nat × Text)}
    (keeps : ∀ c rest taken replacement, rule (c :: rest) = some (taken, replacement) →
      replacement.head? = some c) (text : Text) :
    (substituteAll rule text).head? = text.head? := by
  cases text with
  | nil => rfl
  | cons c rest =>
      cases found : rule (c :: rest) with
      | none =>
          rw [substituteAll_cons_of_none found]
          rfl
      | some result =>
          obtain ⟨taken, replacement⟩ := result
          cases taken with
          | zero =>
              rw [substituteAll, substituteFrom, found]
              rfl
          | succ taken =>
              rw [substituteAll_cons_of_some found, List.head?_append, keeps c rest _ _ found]
              rfl

theorem eq_append_of_splitLast? {before behind : Text}
    (found : splitLast? needle text = some (before, behind)) :
    text = before ++ (needle ++ behind) := by
  induction text generalizing before with
  | nil =>
      rw [splitLast?] at found
      split at found
      next none =>
        cases found
        rw [List.isEmpty_iff.mp none]
        rfl
      next => cases found
  | cons c rest ih =>
      rw [splitLast?] at found
      split at found
      next later last =>
        cases found
        rw [ih last]
        rfl
      next =>
        obtain ⟨after, here, same⟩ := Option.map_eq_some_iff.mp found
        cases same
        have split := eq_append_of_after? here
        exact split

/-- A part of a text without separators lies within one of the parts between them. -/
theorem exists_mem_splitWhere_of_infix {p : Char → Bool} (inside : ∀ c ∈ needle, p c = false)
    (occurs : needle <:+: text) : ∃ part ∈ splitWhere p text, needle <:+: part := by
  obtain ⟨before, behind, rfl⟩ := occurs
  rw [List.append_assoc]
  induction before with
  | nil =>
      obtain ⟨first, others, _, whole⟩ := splitWhere_append inside behind
      rw [List.nil_append, whole]
      exact ⟨_, List.mem_cons_self, (List.prefix_append _ _).isInfix⟩
  | cons c before ih =>
      obtain ⟨part, mem, holds⟩ := ih
      rw [List.cons_append, splitWhere]
      split
      next => exact ⟨part, List.mem_cons_of_mem _ mem, holds⟩
      next =>
        obtain ⟨first, others, split, _⟩ := exists_splitWhere p (before ++ (needle ++ behind))
        rw [split] at mem ⊢
        rcases List.mem_cons.mp mem with rfl | mem
        · exact ⟨c :: part, List.mem_cons_self, holds.trans (List.suffix_cons c part).isInfix⟩
        · exact ⟨part, List.mem_cons_of_mem _ mem, holds⟩

theorem infix_join {separator part : Text} {parts : List Text} (mem : part ∈ parts) :
    part <:+: join separator parts := by
  induction parts with
  | nil => cases mem
  | cons first parts ih =>
      cases parts with
      | nil =>
          rw [List.mem_singleton.mp mem]
          exact List.infix_refl _
      | cons second parts =>
          rw [join_cons_cons, List.append_assoc]
          rcases List.mem_cons.mp mem with rfl | mem
          · exact (List.prefix_append _ _).isInfix
          · rw [← List.append_assoc]
            exact (ih mem).trans (List.suffix_append _ _).isInfix

/-- A part without blanks at its ends is still there when a text has been trimmed. -/
theorem infix_trim {c : Char} (black : isBlank c = false) (firm : ¬ EndsInBlank (c :: needle))
    (occurs : c :: needle <:+: text) : c :: needle <:+: trim text := by
  obtain ⟨before, behind, rfl⟩ := occurs
  have front : ∃ more, (before ++ (c :: needle) ++ behind).dropWhile isBlank =
      more ++ (c :: needle) ++ behind := by
    rw [List.append_assoc, List.dropWhile_append]
    split
    next => exact ⟨[], List.dropWhile_cons_of_neg (by simp [black])⟩
    next => exact ⟨before.dropWhile isBlank, (List.append_assoc _ _ _).symm⟩
  obtain ⟨more, dropped⟩ := front
  rw [trim, dropAround, dropped]
  exact infix_trimEnd_of_firm firm

end Text

namespace Cleanup

open Text

variable {text padding rest : Text}

/-! ## White space -/

/-- A star is seen with all the padding between itself and the end of its line. -/
theorem starPadding_eq_some_iff {c : Char} {result : Nat × Text} :
    starPadding (c :: rest) = some result ↔ ∃ padding back : Text, rest = '*' :: (padding ++ back) ∧
      c ≠ '*' ∧ padding ≠ [] ∧ (∀ d ∈ padding, isPadding d = true) ∧ isLineEnd back = true ∧
        result = (padding.length + 2, [c, '*']) := by
  constructor
  · intro found
    unfold starPadding at found
    split at found
    next first more split =>
      obtain ⟨rfl, rfl⟩ := List.cons.inj split
      dsimp only at found
      split at found
      next fits =>
        simp only [Bool.and_eq_true] at fits
        refine ⟨more.takeWhile isPadding, more.dropWhile isPadding,
          ?_, by simpa using fits.1.1, by simpa using fits.1.2,
          fun d mem => List.all_eq_true.mp List.all_takeWhile d mem, fits.2,
          (Option.some.inj found).symm⟩
        rw [List.takeWhile_append_dropWhile]
      next => cases found
    next => cases found
  · rintro ⟨padding, back, rfl, single, proper, pads, ends, rfl⟩
    have taken : (padding ++ back).takeWhile isPadding = padding := by
      rw [List.takeWhile_append_of_pos pads]
      cases back with
      | nil => rw [List.takeWhile_nil, List.append_nil]
      | cons d back =>
          cases beq_iff_eq.mp ends
          rw [List.takeWhile_cons_of_neg (by decide), List.append_nil]
    have left : (padding ++ back).dropWhile isPadding = back := by
      have whole := @List.takeWhile_append_dropWhile _ isPadding (padding ++ back)
      rw [taken] at whole
      exact List.append_cancel_left whole
    rw [starPadding, taken, left, ends]
    simp [single, proper]

theorem starPadding_eq_none_of_head {c : Char} (head : rest.head? ≠ some '*') :
    starPadding (c :: rest) = none := by
  cases found : starPadding (c :: rest) with
  | none => rfl
  | some result =>
      obtain ⟨padding, back, rfl, -⟩ := starPadding_eq_some_iff.mp found
      exact absurd rfl head

theorem starPadding_star (rest : Text) : starPadding ('*' :: rest) = none := by
  cases found : starPadding ('*' :: rest) with
  | none => rfl
  | some result =>
      obtain ⟨_, _, _, single, -⟩ := starPadding_eq_some_iff.mp found
      exact absurd rfl single

/-- A star without padding right behind it is left alone. -/
theorem starPadding_eq_none_of_solid {c : Char}
    (solid : ∀ d, rest.head? = some d → isPadding d = false) :
    starPadding (c :: '*' :: rest) = none := by
  cases found : starPadding (c :: '*' :: rest) with
  | none => rfl
  | some result =>
      obtain ⟨padding, back, whole, -, proper, pads, -⟩ := starPadding_eq_some_iff.mp found
      obtain ⟨d, padding, rfl⟩ := List.exists_cons_of_ne_nil proper
      cases (List.cons.inj whole).2
      cases (pads d List.mem_cons_self).symm.trans (solid d rfl)

theorem head?_starPadding (text : Text) : (substituteAll starPadding text).head? = text.head? := by
  refine head?_substituteAll (fun c rest taken replacement found => ?_) text
  obtain ⟨_, _, _, _, _, _, _, same⟩ := starPadding_eq_some_iff.mp found
  cases same
  rfl

theorem head?_tightened (text : Text) : (tightened text).head? = text.head? := by
  refine head?_substituteAll (fun c rest taken replacement found => ?_) text
  obtain ⟨_, _, split, _, _, same⟩ := callablePadding_eq_some_iff.mp found
  cases same
  rw [(List.cons.inj split).1]
  rfl

theorem starPadding_begins (blank : ∀ c ∈ padding, isPadding c = true) (rest : Text) :
    substituteAll starPadding (padding ++ (opener ++ rest)) =
      padding ++ (opener ++ substituteAll starPadding rest) := by
  induction padding with
  | nil =>
      have slash : starPadding ('/' :: '*' :: '*' :: rest) = none :=
        starPadding_eq_none_of_solid fun d head => by
          cases head
          decide
      calc
        substituteAll starPadding ('/' :: '*' :: '*' :: rest)
          = '/' :: substituteAll starPadding ('*' :: '*' :: rest) :=
            substituteAll_cons_of_none slash
        _ = '/' :: '*' :: substituteAll starPadding ('*' :: rest) :=
          congrArg _ (substituteAll_cons_of_none (starPadding_star _))
        _ = _ := congrArg _ (congrArg _ (substituteAll_cons_of_none (starPadding_star _)))
  | cons c padding ih =>
      obtain ⟨_, later⟩ := List.forall_mem_cons.mp blank
      have head : (padding ++ (opener ++ rest)).head? ≠ some '*' := by
        cases padding with
        | nil => exact nofun
        | cons d padding =>
            have pads := later d List.mem_cons_self
            rintro same
            cases same
            cases pads
      rw [List.cons_append, substituteAll_cons_of_none (starPadding_eq_none_of_head head), ih later]
      rfl

theorem unclosed_opening (blank : ∀ c ∈ padding, isPadding c = true) :
    Unclosed (padding ++ opener) := by
  have none : ∀ c ∈ padding, c ≠ '*' := fun c mem => Token.ne_of_class (by decide) (blank c mem)
  refine (unclosed_of_ne_star none).append ?_ fun meet => ?_
  · show ¬ closer <:+: opener
    decide
  · exact none '*' (List.mem_of_getLast? meet.1) rfl

theorem exists_trimEnd_opening (padding more : Text) :
    ∃ trimmed, trimmed <+: more ∧
      trimEnd (padding ++ opener ++ more) = padding ++ opener ++ trimmed := by
  have firm : ¬ EndsInBlank (padding ++ opener) :=
    not_endsInBlank_append (by decide) (not_endsInBlank_of_getLast? rfl rfl) padding
  exact ⟨trimEnd more, trimEnd_isPrefix more, trimEnd_append_of_firm firm more⟩

/-- Moving the closing marker leaves the opening one as it is. -/
theorem begins_closeOnOwnLine (begins : text.Begins) : (closeOnOwnLine text).Begins := by
  have kept := begins
  unfold closeOnOwnLine
  split
  next =>
    split
    next before behind found =>
      split
      next => exact kept
      next =>
        obtain ⟨padding, rest, blank, rfl, apart⟩ := begins
        have split : padding ++ opener ++ rest = before ++ (closer ++ behind) := by
          rw [List.append_assoc]
          exact eq_append_of_splitLast? found
        -- The last closing marker begins behind the opening one.
        have short : (padding ++ opener).length ≤ before.length :=
          (unclosed_opening blank).length_le (fun meet => apart meet.2) split
        obtain ⟨more, rfl⟩ := List.prefix_of_prefix_length_le (List.prefix_append _ _)
          (split ▸ List.prefix_append before _) short
        rw [List.append_assoc (padding ++ opener), List.append_cancel_left_eq] at split
        obtain ⟨trimmed, front, whole⟩ := exists_trimEnd_opening padding more
        rw [whole]
        refine ⟨padding, trimmed ++ (['\n', ' '] ++ closer ++ behind), blank,
          by simp only [List.append_assoc], ?_⟩
        cases trimmed with
        | nil => exact nofun
        | cons c trimmed =>
            obtain ⟨others, rfl⟩ := front
            rw [split] at apart
            exact apart
    next => exact kept
  next => exact kept

theorem begins_normalise (begins : text.Begins) : (normalise text).Begins := by
  obtain ⟨padding, rest, blank, rfl, apart⟩ := begins
  have without : ∀ d ∈ padding ++ opener, d ≠ 'c' := by
    rintro d mem rfl
    rcases List.mem_append.mp mem with pad | marker
    · cases blank _ pad
    · revert marker
      decide
  refine begins_closeOnOwnLine ⟨padding, tightened (substituteAll starPadding rest), blank, ?_, ?_⟩
  · rw [starPadding_begins blank, ← List.append_assoc, ← List.append_assoc]
    exact tightened_append_of_front without
  · rw [head?_tightened, head?_starPadding]
    exact apart

/-! ## Markers -/

theorem marked_completeMarkers (opens : text.Opens) : (completeMarkers text).Marked := by
  have longer (more : Text) : Text.Opens (text ++ more) := by
    obtain ⟨padding, rest, blank, rfl⟩ := opens
    exact ⟨padding, rest ++ more, blank, by simp only [List.append_assoc]⟩
  rw [completeMarkers_eq opens]
  split
  next closes => exact ⟨opens, closes⟩
  split
  next =>
    refine ⟨?_, (List.suffix_append _ _).isInfix⟩
    rw [List.append_assoc]
    exact longer _
  next => exact ⟨longer _, ((List.suffix_cons _ _).trans (List.suffix_append _ _)).isInfix⟩

/-! ## One line -/

theorem closer_infix_bareLine (occurs : closer <:+: text) : closer <:+: bareLine text := by
  have firm : ¬ EndsInBlank closer := not_endsInBlank_of_getLast? rfl rfl
  have trimmed := infix_trim (by decide) firm occurs
  unfold bareLine
  split
  next rest stands => exact (List.prefix_append _ _).isInfix
  next rest other stands =>
    rw [stands, List.infix_cons_iff] at trimmed
    refine infix_trim (by decide) firm (trimmed.resolve_left fun front => ?_)
    obtain ⟨more, split⟩ := front
    exact other more (List.cons.inj split).2.symm
  next => exact trimmed

/-- The first line begins with the opening marker, and one of the lines has the closing one. -/
theorem marked_onOneLine (marked : text.Marked) : (onOneLine text).Marked := by
  obtain ⟨⟨padding, rest, blank, rfl⟩, closes⟩ := marked
  constructor
  · have inside : ∀ c ∈ padding ++ opener, (c == '\n') = false := by
      intro c mem
      rcases List.mem_append.mp mem with pad | marker
      · exact beq_eq_false_iff_ne.mpr (Token.ne_of_class (by decide) (blank c pad))
      · have unbroken : ∀ c ∈ opener, (c == '\n') = false := by simp [opener]
        exact unbroken c marker
    obtain ⟨first, others, _, split⟩ := splitWhere_append inside rest
    obtain ⟨trimmed, _, whole⟩ := exists_trimEnd_opening [] first
    have bare : bareLine (padding ++ opener ++ first) = opener ++ trimmed := by
      have start := trimStart_of_opens blank (List.append_assoc padding opener first)
      have line : trim (padding ++ opener ++ first) = opener ++ trimmed :=
        (congrArg trimEnd start).trans whole
      unfold bareLine
      rw [line]
      rfl
    rw [List.append_assoc] at split
    have kept : (!(opener ++ trimmed).isEmpty) = true := rfl
    rw [onOneLine, lines, split, List.map_cons, bare, joinParts, List.filter_cons, if_pos kept]
    cases ((others.map bareLine).filter fun part => !part.isEmpty) with
    | nil => exact ⟨[], trimmed, by simp, rfl⟩
    | cons second parts =>
        exact ⟨[], trimmed ++ ' ' ::
          join [' '] (second :: parts), by simp, by simp [opener, join_cons_cons]⟩
  · obtain ⟨line, mem, holds⟩ :=
      exists_mem_splitWhere_of_infix (p := (· == '\n')) (by simp [closer]) closes
    have bare := closer_infix_bareLine holds
    refine bare.trans (infix_join (List.mem_filter.mpr ⟨List.mem_map_of_mem mem, ?_⟩))
    have proper : bareLine line ≠ [] := fun none => by
      rw [none, List.infix_nil] at bare
      cases bare
    simpa using proper

/-- A text that begins has both markers when it has been cleaned up. -/
theorem marked_finish (begins : text.Begins) (edited oneLine : Bool) :
    (finish edited oneLine text).Marked := by
  have normal : (if edited then normalise text else text).Begins := by
    cases edited with
    | true => exact begins_normalise begins
    | false => exact begins
  have complete := marked_completeMarkers normal.opens
  rw [finish, if_neg (by simpa using begins.opens.ne_nil)]
  cases oneLine with
  | true => exact marked_onOneLine complete
  | false => exact complete

end Cleanup

end DocComment
