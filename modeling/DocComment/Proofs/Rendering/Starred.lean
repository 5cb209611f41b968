import DocComment.Proofs.Rendering.Beginning
import DocComment.Proofs.Rendering.Normal
import DocComment.Rendering.Document

/-!
# The text of a comment without source

A comment that has no source is written with a decorated line for every line
of its entries.  Cleaning up drops the space behind the star of an empty line and
nothing else, when no line ends in padding and no callable is padded
(`renderFresh_eq`).
-/

namespace DocComment

open Cleanup

/-- Every text is made of lines: the last one, or one in front of a line feed and more of them. -/
@[elab_as_elim]
theorem Text.lineInduction {motive : Text → Prop} (text : Text)
    (last : ∀ line, '\n' ∉ line → motive line)
    (feed : ∀ line rest, '\n' ∉ line → motive rest → motive (line ++ '\n' :: rest)) :
    motive text := by
  induction known : text.length using Nat.strong_induction_on generalizing text with
  | _ length ih =>
      by_cases broken : '\n' ∈ text
      · obtain ⟨line, rest, rfl, unbroken⟩ := List.eq_append_cons_of_mem broken
        refine feed line rest unbroken (ih rest.length ?_ rest rfl)
        rw [← known, List.length_append, List.length_cons]
        omega
      · exact last text broken

/-- What stands between the star of a line and its text. -/
def starLead (line : Text) : Text :=
  if isLineEnd line then [] else [' ']

/-- The text with a star in front of every line behind its first one, and a space
where the line has text. -/
def starred : Text → Text
  | [] => []
  | c :: rest =>
      if c = '\n' then '\n' :: ' ' :: '*' :: (starLead rest ++ starred rest) else c :: starred rest

theorem starred_feed (rest : Text) :
    starred ('\n' :: rest) = '\n' :: ' ' :: '*' :: (starLead rest ++ starred rest) := by
  rw [starred, if_pos rfl]

theorem starred_append {line : Text} (unbroken : '\n' ∉ line) (rest : Text) :
    starred (line ++ rest) = line ++ starred rest := by
  induction line with
  | nil => rfl
  | cons c line ih =>
      rw [List.mem_cons, not_or] at unbroken
      rw [List.cons_append, starred, if_neg (Ne.symm unbroken.1), ih unbroken.2, List.cons_append]

theorem starred_of_unbroken {line : Text} (unbroken : '\n' ∉ line) : starred line = line := by
  rw [← List.append_nil line, starred_append unbroken, starred]

/-- Texts of which the second begins a line are starred one by one. -/
theorem starred_append_of_head {text rest : Text} (head : ∀ c, rest.head? = some c → c = '\n') :
    starred (text ++ rest) = starred text ++ starred rest := by
  have ends : isLineEnd rest = true := by
    cases rest with
    | nil => rfl
    | cons c more => exact beq_iff_eq.mpr (head c rfl)
  induction text with
  | nil => rfl
  | cons c more ih =>
      have lead : starLead (more ++ rest) = starLead more := by
        cases more with
        | nil =>
            rw [List.nil_append, starLead, ends]
            rfl
        | cons d others => rfl
      rw [List.cons_append, starred, starred, lead, ih]
      split <;> simp only [List.cons_append, List.append_assoc]

theorem Text.Tidy.tail {c : Char} {text : Text} (tidy : Text.Tidy (c :: text)) : text.Tidy :=
  fun front d back split pads => tidy (c :: front) d back (by rw [split]; rfl) pads

/-- A tidy text does not begin with padding and a line end. -/
theorem Text.Tidy.isLineEnd_eq_false {padding text : Text} (tidy : Text.Tidy (padding ++ text))
    (proper : padding ≠ []) (all : ∀ c ∈ padding, isPadding c = true) : isLineEnd text = false := by
  refine tidy padding.dropLast (padding.getLast proper) text ?_ (all _ (List.getLast_mem proper))
  conv_lhs => rw [← List.dropLast_concat_getLast proper]
  simp

/-! ## Padding behind stars -/

section Decorated

variable {text rest : Text}

theorem decorate_cons {c : Char} (other : c ≠ '\n') (text : Text) :
    decorate (c :: text) = c :: decorate text := by
  rw [decorate, Text.replaceChar, List.flatMap_cons, if_neg other]
  rfl

theorem decorate_feed (text : Text) : decorate ('\n' :: text) = linePrefix ++ decorate text := by
  rw [decorate, Text.replaceChar, List.flatMap_cons, if_pos rfl]
  rfl

theorem isLineEnd_decorate (text : Text) (broken : rest.head? = some '\n') :
    isLineEnd (decorate text ++ rest) = isLineEnd text := by
  obtain ⟨rest, rfl⟩ := List.head?_eq_some_iff.mp broken
  cases text with
  | nil => rfl
  | cons c text =>
      by_cases feed : c = '\n'
      · subst feed
        rfl
      · rw [decorate_cons feed]
        rfl

/-- Padding in a decorated text is padding of the text itself. -/
theorem exists_of_decorate_eq {text padding back : Text} (all : ∀ c ∈ padding, isPadding c = true)
    (broken : rest.head? = some '\n') (split : decorate text ++ rest = padding ++ back) :
    ∃ behind, text = padding ++ behind ∧ back = decorate behind ++ rest := by
  induction padding generalizing text with
  | nil => exact ⟨text, rfl, split.symm⟩
  | cons c padding ih =>
      obtain ⟨pads, others⟩ := List.forall_mem_cons.mp all
      obtain ⟨more, rfl⟩ := List.head?_eq_some_iff.mp broken
      cases text with
      | nil =>
          obtain ⟨rfl, _⟩ := List.cons.inj split
          cases pads
      | cons d text =>
          by_cases feed : d = '\n'
          · subst feed
            have same : '\n' = c := (List.cons.inj split).1
            subst same
            cases pads
          · rw [decorate_cons feed, List.cons_append, List.cons_append] at split
            obtain ⟨rfl, inner⟩ := List.cons.inj split
            obtain ⟨behind, rfl, whole⟩ := ih others inner
            exact ⟨behind, rfl, whole⟩

/-- A star at the end of a line is seen without the lines behind. -/
theorem starPadding_append_feed {part : Text} (proper : part ≠ []) (rest : Text) :
    starPadding (part ++ '\n' :: rest) = starPadding part := by
  have padding (text : Text) :
      (text ++ '\n' :: rest).takeWhile isPadding = text.takeWhile isPadding ∧
        isLineEnd ((text ++ '\n' :: rest).dropWhile isPadding) =
        isLineEnd (text.dropWhile isPadding) := by
    induction text with
    | nil => exact ⟨rfl, rfl⟩
    | cons c text ih =>
        by_cases pads : isPadding c = true
        · rw [List.cons_append, List.takeWhile_cons_of_pos pads, List.takeWhile_cons_of_pos pads,
            List.dropWhile_cons_of_pos pads, List.dropWhile_cons_of_pos pads]
          exact ⟨congrArg _ ih.1, ih.2⟩
        · rw [List.cons_append, List.takeWhile_cons_of_neg pads, List.takeWhile_cons_of_neg pads,
            List.dropWhile_cons_of_neg pads, List.dropWhile_cons_of_neg pads]
          exact ⟨rfl, rfl⟩
  match part, proper with
  | [c], _ => simp [starPadding]
  | c :: d :: more, _ =>
      by_cases star : d = '*'
      · subst star
        obtain ⟨taken, ends⟩ := padding more
        rw [List.cons_append, List.cons_append, starPadding, starPadding, taken, ends]
      · simp [starPadding, star]

theorem substituteAll_starPadding_drop {c : Char} {padding back : Text}
    (found : starPadding (c :: '*' :: (padding ++ back)) = some (padding.length + 2, [c, '*'])) :
    Text.substituteAll starPadding (c :: '*' :: (padding ++ back)) =
      c :: '*' :: Text.substituteAll starPadding back := by
  have reach : padding.length + 1 ≤ ('*' :: (padding ++ back)).length := by
    rw [List.length_cons, List.length_append]
    omega
  have dropped : ('*' :: (padding ++ back)).drop (padding.length + 1) = back := List.drop_left
  rw [Text.substituteAll_cons_of_some found, Text.substituteFrom_drop reach, dropped]
  rfl

/-- A text is gone over star by star: a character is kept, or a star loses the padding behind it. -/
@[elab_as_elim]
theorem starInduction {motive : Text → Prop} (text : Text) (nil : motive [])
    (keep : ∀ c rest, starPadding (c :: rest) = none → motive rest → motive (c :: rest))
    (drop : ∀ c padding back, starPadding (c :: '*' :: (padding ++ back)) =
      some (padding.length + 2, [c, '*']) →
      (∀ d ∈ padding, isPadding d = true) → isLineEnd back = true → motive back →
        motive (c :: '*' :: (padding ++ back))) : motive text := by
  induction known : text.length using Nat.strong_induction_on generalizing text with
  | _ length ih =>
      cases text with
      | nil => exact nil
      | cons c rest =>
          cases found : starPadding (c :: rest) with
          | none =>
            exact keep c rest found (ih _ (by rw [← known]; exact Nat.lt_succ_self _) rest rfl)
          | some result =>
              obtain ⟨padding, back, rfl, -, -, pads, ends, rfl⟩ := starPadding_eq_some_iff.mp found
              refine drop c padding back found pads ends (ih back.length ?_ back rfl)
              rw [← known, List.length_cons, List.length_cons, List.length_append]
              omega

/-- No star of the text itself has padding up to a line end behind it. -/
theorem starPadding_decorate (c : Char) (tidy : text.Tidy) (broken : rest.head? = some '\n') :
    starPadding (c :: (decorate text ++ rest)) = none := by
  cases found : starPadding (c :: (decorate text ++ rest)) with
  | none => rfl
  | some result =>
      obtain ⟨padding, back, split, -, proper, all, lineEnd, -⟩ := starPadding_eq_some_iff.mp found
      obtain ⟨more, rfl⟩ := List.head?_eq_some_iff.mp broken
      cases text with
      | nil => cases split
      | cons d text =>
          by_cases feed : d = '\n'
          · subst feed
            have same : '\n' = '*' := (List.cons.inj split).1
            cases same
          · rw [decorate_cons feed, List.cons_append] at split
            obtain ⟨behind, rfl, rfl⟩ := exists_of_decorate_eq all broken (List.cons.inj split).2
            rw [isLineEnd_decorate behind broken] at lineEnd
            rw [tidy.tail.isLineEnd_eq_false proper all] at lineEnd
            cases lineEnd

/-- In front of an empty line the space behind the star goes. -/
theorem starPadding_linePrefix (tidy : text.Tidy) (broken : rest.head? = some '\n') :
    starPadding (' ' :: '*' :: ' ' :: (decorate text ++ rest)) =
      if isLineEnd text then some (3, [' ', '*']) else none := by
  cases ends : isLineEnd text with
  | true =>
      have head : (decorate text ++ rest).head? = some '\n' := by
        cases text with
        | nil => exact broken
        | cons c text =>
            have feed : c = '\n' := beq_iff_eq.mp ends
            subst feed
            rfl
      obtain ⟨more, whole⟩ := List.head?_eq_some_iff.mp head
      rw [whole]
      rfl
  | false =>
      cases found : starPadding (' ' :: '*' :: ' ' :: (decorate text ++ rest)) with
      | none => rfl
      | some result =>
          obtain ⟨padding, back, split, -, proper, all, lineEnd, -⟩ :=
            starPadding_eq_some_iff.mp found
          cases padding with
          | nil => exact absurd rfl proper
          | cons c padding =>
              obtain ⟨_, others⟩ := List.forall_mem_cons.mp all
              obtain ⟨behind, rfl, rfl⟩ :=
                exists_of_decorate_eq others broken (List.cons.inj (List.cons.inj split).2).2
              rw [isLineEnd_decorate behind broken] at lineEnd
              cases padding with
              | nil => rw [List.nil_append, lineEnd] at ends; cases ends
              | cons d padding =>
                  rw [tidy.isLineEnd_eq_false (List.cons_ne_nil d padding) others] at lineEnd
                  cases lineEnd

/-- Cleaning up a decorated text drops the spaces of its empty lines. -/
theorem substituteAll_starPadding_decorate (tidy : text.Tidy) (broken : rest.head? = some '\n') :
    Text.substituteAll starPadding (decorate text ++ rest) =
      starred text ++ Text.substituteAll starPadding rest := by
  induction text with
  | nil => rfl
  | cons c text ih =>
      have later := ih tidy.tail
      by_cases feed : c = '\n'
      · subst feed
        have front : starPadding ('\n' :: ' ' :: '*' :: ' ' :: (decorate text ++ rest)) = none := rfl
        have here := starPadding_linePrefix tidy.tail broken
        rw [decorate_feed, starred_feed]
        change Text.substituteAll starPadding
          ('\n' :: ' ' :: '*' :: ' ' :: (decorate text ++ rest)) = _
        rw [Text.substituteAll_cons_of_none front]
        cases ends : isLineEnd text with
        | true =>
            rw [ends, if_pos rfl] at here
            rw [Text.substituteAll_cons_of_some here, Text.substituteFrom_drop (by simp)]
            change '\n' :: ' ' :: '*' :: Text.substituteAll starPadding (decorate text ++ rest) = _
            rw [later, starLead, ends]
            rfl
        | false =>
            rw [ends, if_neg Bool.false_ne_true] at here
            have star : starPadding ('*' :: ' ' :: (decorate text ++ rest)) = none := rfl
            rw [Text.substituteAll_cons_of_none here, Text.substituteAll_cons_of_none star,
              Text.substituteAll_cons_of_none (starPadding_decorate ' ' tidy.tail broken), later,
              starLead, ends]
            rfl
      · rw [decorate_cons feed, List.cons_append,
          Text.substituteAll_cons_of_none (starPadding_decorate c tidy.tail broken), later, starred,
          if_neg feed, List.cons_append]

end Decorated

/-! ## Callables -/

/-- The decoration brings no padding in front of the parenthesis of a callable. -/
theorem tightened_starred {text : Text} (clean : ¬ HasPaddedCallable text) :
    tightened (starred text) = starred text := by
  induction text using Text.lineInduction with
  | last line unbroken =>
      have same := starred_append unbroken []
      rw [List.append_nil, starred, List.append_nil] at same
      rw [same]
      exact tightened_eq_self clean
  | feed line rest unbroken ih =>
      have here : ¬ HasPaddedCallable line := fun padded =>
        clean (padded.of_isInfix (List.prefix_append _ _).isInfix)
      have later : ¬ HasPaddedCallable rest := fun padded =>
        clean (padded.of_isInfix ⟨line ++ ['\n'], [], by simp⟩)
      have without : ∀ c ∈ ' ' :: '*' :: starLead rest, c ≠ 'c' := by
        unfold starLead
        split <;> simp
      have lead : tightened (' ' :: '*' :: starLead rest ++ starred rest) =
          ' ' :: '*' :: starLead rest ++ tightened (starred rest) :=
            tightened_append_of_front without
      rw [starred_append unbroken, starred_feed, tightened_append_of_last (by decide),
        tightened_eq_self here]
      exact congrArg (fun behind => line ++ '\n' :: behind) (lead.trans (by rw [ih later]; rfl))

/-- The texts of entries, each on a line of its own. -/
def bodyOf (texts : List Text) : Text :=
  texts.flatMap fun text => '\n' :: text

theorem head?_bodyOf {texts : List Text} {c : Char} (head : (bodyOf texts).head? = some c) :
    c = '\n' := by
  cases texts with
  | nil => cases head
  | cons text texts => cases head; rfl

theorem bodyOf_cons (text : Text) (texts : List Text) :
    bodyOf (text :: texts) = '\n' :: text ++ bodyOf texts :=
  List.flatMap_cons

theorem not_hasPaddedCallable_bodyOf {texts : List Text}
    (clean : ∀ text ∈ texts, ¬ HasPaddedCallable text) :
    ¬ HasPaddedCallable (bodyOf texts) := by
  have same : tightened (bodyOf texts) = bodyOf texts := by
    induction texts with
    | nil => rfl
    | cons text texts ih =>
        obtain ⟨here, later⟩ := List.forall_mem_cons.mp clean
        have first : tightened ('\n' :: text) = '\n' :: tightened text :=
          @tightened_append_of_last [] text '\n' (by decide)
        rw [bodyOf_cons, tightened_append_of_head fun c head => ?_, first,
          tightened_eq_self here, ih later]
        rw [head?_bodyOf head]
        decide
  rw [← same]
  exact not_hasPaddedCallable _

theorem tidy_bodyOf {texts : List Text} (tidy : ∀ text ∈ texts, text.Tidy) :
    (bodyOf texts).Tidy := by
  induction texts with
  | nil => exact Text.Tidy.nil
  | cons text texts ih =>
      obtain ⟨here, later⟩ := List.forall_mem_cons.mp tidy
      rw [bodyOf_cons]
      have first : Text.Tidy ('\n' :: text) := by
        intro front c back split pads
        cases front with
        | nil => cases split; cases pads
        | cons d front => exact here front c back (List.cons.inj split).2 pads
      refine Text.Tidy.append (fun front c back split pads _ => first front c back split pads) ?_
        (ih later)
      intro front c split pads
      have ended := first front c [] split pads
      cases ended

/-! ## The whole text -/

theorem decorate_bodyOf (texts : List Text) :
    decorate (bodyOf texts) = texts.flatMap fun text => linePrefix ++ decorate text := by
  induction texts with
  | nil => rfl
  | cons text texts ih =>
      have divided : decorate ('\n' :: text ++ bodyOf texts) =
          decorate ('\n' :: text) ++ decorate (bodyOf texts) := List.flatMap_append
      rw [bodyOf_cons, divided, decorate_feed, ih, List.flatMap_cons]

/-- The closing marker on a line of its own. -/
def closingLine : Text :=
  ['\n', ' '] ++ closer

/-- What is cleaned up in a text whose lines were decorated. -/
theorem finish_decorate {text : Text} (tidy : text.Tidy) (clean : ¬ HasPaddedCallable text) :
    finish true false (opener ++ (decorate text ++ closingLine)) =
      opener ++ (starred text ++ closingLine) := by
  have trimmed : Text.substituteAll starPadding (opener ++ (decorate text ++ closingLine)) =
      opener ++ (starred text ++ closingLine) := by
    refine (@starPadding_begins [] (by simp) _).trans (congrArg (fun rest => opener ++ rest) ?_)
    exact substituteAll_starPadding_decorate tidy rfl
  have tight : tightened (opener ++ (starred text ++ closingLine)) =
      opener ++ (starred text ++ closingLine) := by
    have without : ∀ c ∈ opener, c ≠ 'c' := by simp [opener]
    have last : tightened closingLine = closingLine := rfl
    rw [tightened_append_of_front without, tightened_append_of_head fun c head => ?_,
      tightened_starred clean, last]
    cases head
    decide
  have ends : IsEnding closer := ⟨[], rfl, by simp⟩
  have regroup : opener ++ (starred text ++ closingLine) =
      opener ++ starred text ++ ['\n', ' '] ++ closer := by
    rw [closingLine]
    simp only [List.append_assoc]
  have stays : closeOnOwnLine (opener ++ (starred text ++ closingLine)) =
      opener ++ (starred text ++ closingLine) := by
    rw [regroup]
    exact closeOnOwnLine_of_stays ends (not_markerMoves_of_blank ends (by simp) (by simp; decide))
  have opens : Text.Opens (opener ++ (starred text ++ closingLine)) := ⟨[], _, by simp, rfl⟩
  have closes : closer <:+: opener ++ (starred text ++ closingLine) := by
    rw [regroup]
    exact (List.suffix_append _ _).isInfix
  have normal : normalise (opener ++ (decorate text ++ closingLine)) =
      opener ++ (starred text ++ closingLine) := by
    rw [normalise, trimmed, ← tightened, tight, stays]
  rw [finish, if_neg (by simp [opener]), if_pos rfl, normal, if_neg Bool.false_ne_true,
    completeMarkers_of_closes opens closes]

/--
The text of a comment without source, when no line of its entries ends in
padding and none has a padded callable.
-/
theorem renderFresh_eq {comment : Comment} (proper : comment.entries ≠ [])
    (lines : comment.onOneLine = false)
    (tidy : ∀ entry ∈ comment.entries, entry.renderFresh.Tidy)
    (clean : ∀ entry ∈ comment.entries, ¬ HasPaddedCallable entry.renderFresh) :
    comment.renderFresh =
      opener ++ (starred (bodyOf (comment.entries.map Entry.renderFresh)) ++ closingLine) := by
  have written : comment.freshText =
      opener ++ (decorate (bodyOf (comment.entries.map Entry.renderFresh)) ++ closingLine) := by
    rw [decorate_bodyOf, List.flatMap_map, Comment.freshText, closingLine]
    simp only [List.append_assoc]
  rw [Comment.renderFresh, if_neg (by simpa using proper), lines, written]
  exact finish_decorate (tidy_bodyOf (List.forall_mem_map.mpr tidy))
    (not_hasPaddedCallable_bodyOf (List.forall_mem_map.mpr clean))

end DocComment
