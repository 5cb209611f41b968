import DocComment.Proofs.Rendering.Remains
import DocComment.Proofs.Rendering.Starred

/-!
# Normal white space

A text is normal when no padding stands behind a single star at the end of a line or in front of
the parenthesis of a callable, and its last closing marker has only blanks in front of it on its
line if there are several lines (`IsNormal`).

Cleaning up goes over a text three times.  Each time takes away what it looks for, and no later
one brings back what an earlier one took away.  So what was cleaned up is normal
(`isNormal_normalise`), and a normal text stays as it is (`normalise_eq_self`).
-/

namespace DocComment

namespace Text

variable {text before behind : Text}

/-- The last closing marker is the one with none behind it. -/
theorem splitLast?_closer_iff :
    splitLast? Cleanup.closer text = some (before, behind) ↔
      text = before ++ (Cleanup.closer ++ behind) ∧ behind.Unclosed := by
  constructor
  · intro found
    refine ⟨eq_append_of_splitLast? found, fun occurs => ?_⟩
    obtain ⟨front, back, split, later⟩ := exists_splitLast? occurs
    have again := later (before ++ Cleanup.closer)
    rw [List.append_assoc, ← eq_append_of_splitLast? found, found] at again
    obtain ⟨-, rfl⟩ := Prod.mk.inj (Option.some.inj again)
    have longer := congrArg List.length split
    simp only [Cleanup.closer, List.length_append, List.length_cons, List.length_nil] at longer
    omega
  · rintro ⟨rfl, unclosed⟩
    induction before with
    | nil =>
        have later : splitLast? ['*', '/'] ('/' :: behind) = none :=
          splitLast?_of_absent (unclosed.cons (by decide))
        rw [List.nil_append, Cleanup.closer, List.cons_append, List.cons_append, List.nil_append,
          splitLast?, later]
        rfl
    | cons c before ih => rw [List.cons_append, splitLast?, ih]

end Text

namespace Cleanup

open Text

variable {text first second rest : Text} {c : Char}

/-! ## Padding behind stars -/

/-- Whether a single star has nothing but padding between itself and the end of its line. -/
def HasPaddedStar (text : Text) : Prop :=
  ∃ (front : Text) (c : Char) (padding back : Text), text = front ++ c :: '*' :: (padding ++ back) ∧
    c ≠ '*' ∧ padding ≠ [] ∧ (∀ d ∈ padding, isPadding d = true) ∧ isLineEnd back = true

theorem hasPaddedStar_cons_iff :
    HasPaddedStar (c :: rest) ↔ starPadding (c :: rest) ≠ none ∨ HasPaddedStar rest := by
  constructor
  · rintro ⟨front, d, padding, back, split, padded⟩
    cases front with
    | nil =>
        obtain ⟨rfl, rfl⟩ := List.cons.inj split
        obtain ⟨single, proper, pads, ends⟩ := padded
        have found :=
          starPadding_eq_some_iff.mpr ⟨padding, back, rfl, single, proper, pads, ends, rfl⟩
        exact .inl (by rw [found]; exact nofun)
    | cons e front => exact .inr ⟨front, d, padding, back, (List.cons.inj split).2, padded⟩
  · rintro (fits | ⟨front, d, padding, back, rfl, padded⟩)
    · obtain ⟨result, found⟩ := Option.ne_none_iff_exists'.mp fits
      obtain ⟨padding, back, rfl, single, proper, pads, ends, -⟩ := starPadding_eq_some_iff.mp found
      exact ⟨[], c, padding, back, rfl, single, proper, pads, ends⟩
    · exact ⟨c :: front, d, padding, back, rfl, padded⟩

theorem not_hasPaddedStar_nil : ¬ HasPaddedStar [] := by
  rintro ⟨front, c, padding, back, split, -⟩
  simp at split

theorem HasPaddedStar.of_suffix (padded : HasPaddedStar first) (ends : first <:+ text) :
    HasPaddedStar text := by
  obtain ⟨front, rfl⟩ := ends
  obtain ⟨before, c, padding, back, rfl, shape⟩ := padded
  exact ⟨front ++ before, c, padding, back, (List.append_assoc _ _ _).symm, shape⟩

/-- Stars are looked at line by line. -/
theorem hasPaddedStar_append_feed :
    HasPaddedStar (first ++ '\n' :: rest) ↔ HasPaddedStar first ∨ HasPaddedStar ('\n' :: rest) := by
  induction first with
  | nil => exact ⟨.inr, fun either => either.resolve_left not_hasPaddedStar_nil⟩
  | cons c first ih =>
      have line : starPadding (c :: (first ++ '\n' :: rest)) = starPadding (c :: first) :=
        starPadding_append_feed (List.cons_ne_nil c first) rest
      rw [List.cons_append, hasPaddedStar_cons_iff, hasPaddedStar_cons_iff, ih, line, or_assoc]

/-- In front of a text that does not begin with a star there is a padded star only
if there is one of its own. -/
theorem HasPaddedStar.of_starless (padded : HasPaddedStar (first ++ rest)) (starless : '*' ∉ first)
    (head : rest.head? ≠ some '*') : HasPaddedStar rest := by
  induction first with
  | nil => exact padded
  | cons c first ih =>
      have later : '*' ∉ first := fun mem => starless (List.mem_cons_of_mem _ mem)
      have next : (first ++ rest).head? ≠ some '*' := by
        cases first with
        | nil => exact head
        | cons d first => exact fun same => later (Option.some.inj same ▸ List.mem_cons_self)
      rw [List.cons_append, hasPaddedStar_cons_iff, starPadding_eq_none_of_head next] at padded
      exact ih (padded.resolve_left fun fits => fits rfl) later

/-- A padded star in a text that does not end in padding stays one whatever follows the text. -/
theorem HasPaddedStar.append (padded : HasPaddedStar first) (firm : ¬ EndsInBlank first)
    (rest : Text) :
    HasPaddedStar (first ++ rest) := by
  obtain ⟨front, c, padding, back, rfl, single, proper, pads, ends⟩ := padded
  refine ⟨front, c, padding, back ++ rest, by simp only [List.append_assoc, List.cons_append],
    single, proper, pads, ?_⟩
  cases back with
  | nil =>
      refine absurd ⟨padding.getLast proper, ?_,
        isBlank_of_isPadding (pads _ (List.getLast_mem proper))⟩ firm
      have last : (front ++ [c, '*'] ++ padding).getLast? = some (padding.getLast proper) := by
        rw [List.getLast?_append_of_ne_nil _ proper, List.getLast?_eq_some_getLast proper]
      simpa only [List.append_assoc, List.cons_append, List.nil_append, List.append_nil] using last
  | cons d back => exact ends

/-! ## The first time: padding behind stars goes -/

theorem isLineEnd_congr (same : first.head? = second.head?) :
    isLineEnd first = isLineEnd second := by
  cases first <;> cases second <;> simp_all [isLineEnd]

/-- Padding up to the end of a line stood there from the start. -/
theorem exists_of_starPadding_eq_append {padding back : Text}
    (pads : ∀ c ∈ padding, isPadding c = true)
    (ends : isLineEnd back = true) (whole : substituteAll starPadding text = padding ++ back) :
    ∃ behind, text = padding ++ behind ∧ isLineEnd behind = true := by
  induction padding generalizing text with
  | nil =>
      refine ⟨text, rfl, ?_⟩
      rw [← isLineEnd_congr (head?_starPadding text), whole]
      exact ends
  | cons d padding ih =>
      obtain ⟨pad, others⟩ := List.forall_mem_cons.mp pads
      cases text with
      | nil => cases whole
      | cons c rest =>
          cases found : starPadding (c :: rest) with
          | none =>
              rw [substituteAll_cons_of_none found] at whole
              obtain ⟨rfl, later⟩ := List.cons.inj whole
              obtain ⟨behind, rfl, ended⟩ := ih others later
              exact ⟨behind, rfl, ended⟩
          | some result =>
              -- A star stands in the way.
              obtain ⟨inner, more, rfl, -, -, -, -, rfl⟩ := starPadding_eq_some_iff.mp found
              rw [substituteAll_starPadding_drop found] at whole
              have star : '*' :: substituteAll starPadding more = padding ++ back :=
                (List.cons.inj whole).2
              cases padding with
              | nil =>
                  rw [List.nil_append] at star
                  rw [← star] at ends
                  cases ends
              | cons e padding =>
                  obtain ⟨rfl, -⟩ := List.cons.inj star
                  cases others _ List.mem_cons_self

/-- Where no star loses padding, none does when the text behind was gone over. -/
theorem starPadding_cons_substituteAll (apart : starPadding (c :: rest) = none) :
    starPadding (c :: substituteAll starPadding rest) = none := by
  cases found : starPadding (c :: substituteAll starPadding rest) with
  | none => rfl
  | some result =>
      obtain ⟨padding, back, whole, single, proper, pads, ends, -⟩ :=
        starPadding_eq_some_iff.mp found
      have head := head?_starPadding rest
      rw [whole] at head
      obtain ⟨more, rfl⟩ := List.head?_eq_some_iff.mp head.symm
      rw [substituteAll_cons_of_none (starPadding_star more)] at whole
      obtain ⟨behind, rfl, ended⟩ :=
        exists_of_starPadding_eq_append pads ends (List.cons.inj whole).2
      rw [starPadding_eq_some_iff.mpr
        ⟨padding, behind, rfl, single, proper, pads, ended, rfl⟩] at apart
      cases apart

theorem not_hasPaddedStar_substituteAll (text : Text) :
    ¬ HasPaddedStar (substituteAll starPadding text) := by
  induction text using starInduction with
  | nil => exact not_hasPaddedStar_nil
  | keep c rest apart ih =>
      rw [substituteAll_cons_of_none apart, hasPaddedStar_cons_iff,
        starPadding_cons_substituteAll apart]
      exact not_or.mpr ⟨fun fits => fits rfl, ih⟩
  | drop c padding back found pads ends ih =>
      -- Right behind the star its line ends now.
      have bare : starPadding (c :: '*' :: substituteAll starPadding back) = none :=
        starPadding_eq_none_of_solid fun d head => by
          rw [head?_starPadding] at head
          obtain ⟨more, rfl⟩ := List.head?_eq_some_iff.mp head
          cases beq_iff_eq.mp ends
          decide
      rw [substituteAll_starPadding_drop found, hasPaddedStar_cons_iff, hasPaddedStar_cons_iff,
        bare, starPadding_star]
      exact not_or.mpr ⟨fun fits => fits rfl, not_or.mpr ⟨fun fits => fits rfl, ih⟩⟩

theorem substituteAll_starPadding_eq_self (clean : ¬ HasPaddedStar text) :
    substituteAll starPadding text = text := by
  induction text using starInduction with
  | nil => rfl
  | keep c rest apart ih =>
      rw [substituteAll_cons_of_none apart,
        ih fun padded => clean (hasPaddedStar_cons_iff.mpr (.inr padded))]
  | drop c padding back found pads ends ih =>
      exact absurd (hasPaddedStar_cons_iff.mpr (.inl (by rw [found]; exact nofun))) clean

/-! ## The second time: callables are tightened -/

/-- Tightening what follows a character brings no padding behind a star there. -/
theorem starPadding_cons_tightened (apart : starPadding (c :: rest) = none) :
    starPadding (c :: tightened rest) = none := by
  cases found : starPadding (c :: tightened rest) with
  | none => rfl
  | some result =>
      obtain ⟨padding, back, whole, single, proper, pads, ends, -⟩ :=
        starPadding_eq_some_iff.mp found
      have without : ∀ d ∈ '*' :: padding, d ≠ 'c' := by
        rintro d mem rfl
        rcases List.mem_cons.mp mem with star | pad
        · cases star
        · cases pads _ pad
      obtain ⟨behind, rfl⟩ := exists_of_tightened_eq_append without whole
      rw [tightened_append_of_front without] at whole
      have same : tightened behind = back := List.append_cancel_left whole
      have ended : isLineEnd behind = true := by
        rw [← isLineEnd_congr (head?_tightened behind), same]
        exact ends
      have again :=
        starPadding_eq_some_iff.mpr ⟨padding, behind, rfl, single, proper, pads, ended, rfl⟩
      rw [List.cons_append, again] at apart
      cases apart

theorem not_hasPaddedStar_tightened (clean : ¬ HasPaddedStar text) :
    ¬ HasPaddedStar (tightened text) := by
  induction text using callableInduction with
  | nil => exact clean
  | keep c rest apart ih =>
      rw [hasPaddedStar_cons_iff, not_or, not_not] at clean
      rw [tightened_cons_of_none apart, hasPaddedStar_cons_iff, starPadding_cons_tightened clean.1]
      exact not_or.mpr ⟨fun fits => fits rfl, ih clean.2⟩
  | drop padding back proper pads ih =>
      have inside : '(' :: back <:+ callableWord ++ (padding ++ '(' :: back) :=
        ⟨callableWord ++ padding, List.append_assoc _ _ _⟩
      have head : (tightened ('(' :: back)).head? ≠ some '*' := by
        rw [head?_tightened]
        exact nofun
      rw [tightened_padded proper pads]
      exact fun padded =>
        ih (fun padded => clean (padded.of_suffix inside)) (padded.of_starless (by decide) head)

/-! ## The third time: the closing marker is put on a line of its own -/

/-- Whether only blanks stand in front of the last closing marker on its line, if
there are several lines. -/
def ClosesOnOwnLine (text : Text) : Prop :=
  '\n' ∈ text → ∀ before behind, text = before ++ (closer ++ behind) → behind.Unclosed →
    ∀ c ∈ lastLine before, isBlank c = true

/-- The last closing marker stands where it should, or it is put on a new line. -/
theorem closeOnOwnLine_cases (text : Text) :
    (closeOnOwnLine text = text ∧ ClosesOnOwnLine text) ∨
      ∃ before behind, text = before ++ (closer ++ behind) ∧ behind.Unclosed ∧
        closeOnOwnLine text = trimEnd before ++ '\n' :: ' ' :: (closer ++ behind) := by
  rw [closeOnOwnLine]
  split
  next broken =>
    split
    next before behind found =>
      split
      next blank =>
        refine .inl ⟨rfl, fun _ before' behind' split unclosed => ?_⟩
        rw [splitLast?_closer_iff.mpr ⟨split, unclosed⟩] at found
        cases found
        exact List.all_eq_true.mp blank
      next =>
        obtain ⟨split, unclosed⟩ := splitLast?_closer_iff.mp found
        refine .inr ⟨before, behind, split, unclosed, ?_⟩
        simp only [List.append_assoc, List.cons_append, List.nil_append]
    next absent =>
      refine .inl ⟨rfl, fun _ before behind split unclosed => ?_⟩
      rw [splitLast?_closer_iff.mpr ⟨split, unclosed⟩] at absent
      cases absent
  next unbroken =>
    exact .inl ⟨rfl, fun broken => absurd (List.contains_iff_mem.mpr broken) unbroken⟩

theorem closeOnOwnLine_eq_self (closes : ClosesOnOwnLine text) : closeOnOwnLine text = text := by
  rw [closeOnOwnLine]
  split
  next broken =>
    split
    next before behind found =>
      obtain ⟨split, unclosed⟩ := splitLast?_closer_iff.mp found
      have blank := closes (List.contains_iff_mem.mp broken) before behind split unclosed
      exact if_pos (List.all_eq_true.mpr blank)
    next => rfl
  next => rfl

theorem closesOnOwnLine_closeOnOwnLine (text : Text) : ClosesOnOwnLine (closeOnOwnLine text) := by
  rcases closeOnOwnLine_cases text with ⟨same, closes⟩ | ⟨before, behind, -, unclosed, moved⟩
  · rwa [same]
  · intro _ before' behind' split unclosed'
    have here : closeOnOwnLine text = (trimEnd before ++ ['\n', ' ']) ++ (closer ++ behind) := by
      rw [moved]
      simp only [List.append_assoc, List.cons_append, List.nil_append]
    have found := splitLast?_closer_iff.mpr ⟨split, unclosed'⟩
    rw [splitLast?_closer_iff.mpr ⟨here, unclosed⟩] at found
    cases found
    intro c mem
    cases List.mem_singleton.mp (mem_of_mem_lastLine mem)
    rfl

/-- What stands in front of a moved marker is trimmed, so no star there has padding behind it. -/
theorem not_hasPaddedStar_closeOnOwnLine (clean : ¬ HasPaddedStar text) :
    ¬ HasPaddedStar (closeOnOwnLine text) := by
  rcases closeOnOwnLine_cases text with ⟨same, -⟩ | ⟨before, behind, rfl, -, moved⟩
  · rwa [same]
  · rw [moved, hasPaddedStar_append_feed]
    rintro (padded | padded)
    · obtain ⟨blanks, whole, -⟩ := exists_trimEnd before
      have longer := padded.append (not_endsInBlank_trimEnd before) (blanks ++ (closer ++ behind))
      rw [← List.append_assoc, ← whole] at longer
      exact clean longer
    · have marker : starPadding (' ' :: (closer ++ behind)) = none :=
        starPadding_eq_none_of_solid fun d head => by
          cases head
          decide
      have below : ¬ HasPaddedStar (closer ++ behind) :=
        fun padded => clean (padded.of_suffix (List.suffix_append _ _))
      have padded := @HasPaddedStar.of_starless ['\n'] _ padded (by decide) nofun
      rw [hasPaddedStar_cons_iff, marker] at padded
      exact padded.elim (fun fits => fits rfl) below

/-- A moved marker still parts what stands in front of it from what follows. -/
theorem not_hasPaddedCallable_closeOnOwnLine (clean : ¬ HasPaddedCallable text) :
    ¬ HasPaddedCallable (closeOnOwnLine text) := by
  rcases closeOnOwnLine_cases text with ⟨same, -⟩ | ⟨before, behind, rfl, -, moved⟩
  · rwa [same]
  · have inside {part : Text} (occurs : part <:+: before ++ (closer ++ behind)) :
        ¬ HasPaddedCallable part :=
      fun padded => clean (padded.of_isInfix occurs)
    rw [moved]
    refine not_hasPaddedCallable_append (fun c head => ?_) (inside ?_) ?_
    · cases head
      decide
    · exact ((trimEnd_isPrefix before).trans (List.prefix_append _ _)).isInfix
    · exact @not_hasPaddedCallable_front ['\n', ' '] _ (by decide)
        (inside (List.suffix_append _ _).isInfix)

/-! ## All together -/

/-- A text in which cleaning up finds nothing to do. -/
structure IsNormal (text : Text) : Prop where
  stars : ¬ HasPaddedStar text
  callables : ¬ HasPaddedCallable text
  closes : ClosesOnOwnLine text

theorem normalise_eq_self (normal : IsNormal text) : normalise text = text := by
  rw [normalise, substituteAll_starPadding_eq_self normal.stars, ← tightened,
    tightened_eq_self normal.callables, closeOnOwnLine_eq_self normal.closes]

theorem isNormal_normalise (text : Text) : IsNormal (normalise text) where
  stars :=
    not_hasPaddedStar_closeOnOwnLine
      (not_hasPaddedStar_tightened (not_hasPaddedStar_substituteAll text))
  callables := not_hasPaddedCallable_closeOnOwnLine (not_hasPaddedCallable _)
  closes := closesOnOwnLine_closeOnOwnLine _

/--
Cleaning up a second time changes nothing, and the texts that cleaning up leaves as they are
are just the normal ones.
-/
theorem normalise_normalise (text : Text) :
    normalise (normalise text) = normalise text ∧ (normalise text = text ↔ IsNormal text) := by
  refine ⟨normalise_eq_self (isNormal_normalise text), fun same => ?_, normalise_eq_self⟩
  rw [← same]
  exact isNormal_normalise text

example :
    normalise "/** x * \n * callable  (y) */".toList = "/** x *\n * callable(y)\n */".toList := by
  decide

end Cleanup

end DocComment
