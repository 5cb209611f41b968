import DocComment.Proofs.Reading.LineEnd
import DocComment.Proofs.Rendering.Beginning
import DocComment.Proofs.Rendering.Normal

/-!
# What remains behind a text

When no padding is dropped from an edited comment, cleaning up only moves the
closing marker or adds one.  Behind a text that does not end in a blank, its
line still ends then, and no description goes on that did not before
(`exists_remains`).
-/

namespace DocComment

open Token

namespace Text

variable {needle front text : Text}

/-- The last occurrence in a text is the last one whatever stands in front of the text. -/
theorem exists_splitLast? (occurs : needle <:+: text) :
    ∃ before behind, text = before ++ (needle ++ behind) ∧
      ∀ front, splitLast? needle (front ++ text) = some (front ++ before, behind) := by
  have found : ∃ before behind, splitLast? needle text = some (before, behind) := by
    induction text with
    | nil =>
        rw [List.infix_nil.mp occurs]
        exact ⟨[], [], rfl⟩
    | cons c rest ih =>
        rw [splitLast?]
        cases later : splitLast? needle rest with
        | some found => exact ⟨_, _, rfl⟩
        | none =>
            rcases List.infix_cons_iff.mp occurs with ⟨behind, split⟩ | inside
            · simp only []
              rw [after?_eq_some_iff.mpr split.symm]
              exact ⟨_, _, rfl⟩
            · obtain ⟨before, behind, found⟩ := ih inside
              rw [later] at found
              cases found
  obtain ⟨before, behind, found⟩ := found
  refine ⟨before, behind, eq_append_of_splitLast? found, fun front => ?_⟩
  induction front with
  | nil => exact found
  | cons c front ih =>
      rw [List.cons_append, splitLast?, ih]
      rfl

theorem splitLast?_of_absent (absent : ¬ needle <:+: text) : splitLast? needle text = none := by
  cases found : splitLast? needle text with
  | none => rfl
  | some parts =>
      refine absurd ⟨parts.1, parts.2, ?_⟩ absent
      rw [List.append_assoc]
      exact (eq_append_of_splitLast? found).symm

theorem not_endsInBlank_trimEnd (text : Text) : ¬ EndsInBlank (trimEnd text) := by
  rintro ⟨c, last, blank⟩
  rw [trimEnd_eq_rdropWhile] at last
  have proper : text.rdropWhile isBlank ≠ [] := by
    intro empty
    rw [empty] at last
    cases last
  rw [List.getLast?_eq_some_getLast proper] at last
  exact List.rdropWhile_last_not isBlank text proper (Option.some.inj last ▸ blank)

theorem Opens.append (opens : front.Opens) (rest : Text) : (front ++ rest).Opens := by
  obtain ⟨padding, more, pads, rfl⟩ := opens
  exact ⟨padding, more ++ rest, pads, by simp only [List.append_assoc]⟩

end Text

namespace Token

theorem isNameStart_eq_false_of_isBlank {c : Char} (blank : isBlank c = true) :
    isNameStart c = false := by
  rw [isNameStart, Bool.or_eq_false_iff]
  constructor
  · rw [isAlpha_eq, Bool.or_eq_false_iff, Bool.eq_false_iff, Bool.eq_false_iff, Ne, Ne, isUpper_iff,
      isLower_iff]
    simp only [isBlank, Bool.or_eq_true, Bool.and_eq_true, decide_eq_true_eq, beq_iff_eq] at blank
    omega
  · rw [beq_eq_false_iff_ne]
    rintro rfl
    cases blank

variable {kept rest : Text}

/-- A line break ends the line in front of it, with its decoration. -/
theorem afterDecoration_feed (front more : Text) :
    afterDecoration (front ++ '\n' :: more) = afterDecoration front ++ '\n' :: more := by
  have length : decorationLength (front ++ '\n' :: more) = decorationLength front :=
    decorationLength_append nofun fun _ => rfl
  rw [afterDecoration, length, List.drop_append_of_le_length (decorationLength_le front),
    afterDecoration, List.dropWhile_append]
  split
  · next empty => rw [List.isEmpty_iff.mp empty]; rfl
  · rfl

theorem not_endsInBlank_afterDecoration (firm : ¬ Text.EndsInBlank kept) :
    ¬ Text.EndsInBlank (afterDecoration kept) := by
  rintro ⟨c, last, blank⟩
  obtain ⟨front, split⟩ :=
    (List.dropWhile_suffix (l := kept.drop (decorationLength kept)) isPadding).trans
    (List.drop_suffix (decorationLength kept) kept)
  refine firm ⟨c, ?_, blank⟩
  rw [← split, List.getLast?_append]
  exact congrArg (Option.or · _) last

/-- A text that does not end in a blank keeps its decoration in front of every text. -/
theorem afterDecoration_append (firm : ¬ Text.EndsInBlank kept) (slash : rest.head? ≠ some '/')
    (proper : afterDecoration kept ≠ []) :
    afterDecoration (kept ++ rest) = afterDecoration kept ++ rest := by
  have length : decorationLength (kept ++ rest) = decorationLength kept := by
    refine decorationLength_append slash fun all => ?_
    cases last : kept.getLast? with
    | none => exact absurd (by rw [List.getLast?_eq_none_iff.mp last]; rfl) proper
    | some c =>
      exact absurd ⟨c, last, isBlank_of_isPadding (all c (List.mem_of_getLast? last))⟩ firm
  rw [afterDecoration, length, List.drop_append_of_le_length (decorationLength_le kept),
    List.dropWhile_append, if_neg]
  · rfl
  · rw [List.isEmpty_iff]
    exact proper

/-- Where a description ends in front of a text, it ends there when a line break
follows the text. -/
theorem halting_feed (halting : Halting kept) (more : Text) : Halting (kept ++ '\n' :: more) := by
  cases kept with
  | nil => exact .inl (endLine_of_firstKind? (.inl (firstKind?_feed (.inl rfl) more)))
  | cons c kept =>
      cases kept with
      | nil => exact halting_cons_cons_iff.mpr (.inl (eq_feed_of_halting halting))
      | cons d kept => exact halting_cons_cons_iff.mpr (halting_cons_cons_iff.mp halting)

/-- What stands behind a text that does not end in a blank does not tell where a
description ends. -/
theorem halting_afterDecoration_feed (firm : ¬ Text.EndsInBlank kept)
    (head : ∃ c, rest.head? = some c ∧ (isBlank c = true ∨ c = '*'))
    (halting : Halting (afterDecoration (kept ++ rest))) (more : Text) :
    Halting (afterDecoration (kept ++ '\n' :: more)) := by
  obtain ⟨e, head, other⟩ := head
  obtain ⟨behind, rfl⟩ := List.head?_eq_some_iff.mp head
  rw [afterDecoration_feed]
  by_cases empty : afterDecoration kept = []
  · rw [empty]
    exact .inl (endLine_of_firstKind? (.inl (firstKind?_feed (.inl rfl) more)))
  · have slash : (e :: behind).head? ≠ some '/' := by
      rintro ⟨⟩
      rcases other with blank | star
      · cases blank
      · cases star
    have dark := not_endsInBlank_afterDecoration firm
    rw [afterDecoration_append firm slash empty] at halting
    cases stands : afterDecoration kept with
    | nil => exact absurd stands empty
    | cons c line =>
        rw [stands] at halting dark
        cases line with
        | cons d line => exact halting_cons_cons_iff.mpr (halting_cons_cons_iff.mp halting)
        | nil =>
            -- The only character of the line is no line feed, and what follows makes it no marker.
            have black : isBlank c ≠ true := fun blank => dark ⟨c, rfl, blank⟩
            rcases halting_cons_cons_iff.mp halting with rfl | ⟨rfl, -⟩ | ⟨-, rfl⟩ | ⟨-, starts⟩
            · exact absurd rfl black
            · exact absurd rfl black
            · exact absurd rfl slash
            · rcases other with blank | rfl
              · rw [isNameStart_eq_false_of_isBlank blank] at starts
                cases starts
              · cases starts

end Token

namespace Cleanup

open Text

variable {front behind text : Text}

/-! ## Texts of which no padding is dropped -/

/-- Cleaning up drops no padding from the text. -/
def Settled (text : Text) : Prop :=
  tightened (Text.substituteAll starPadding text) = text

instance : DecidablePred Settled := fun text =>
  inferInstanceAs (Decidable (tightened (Text.substituteAll starPadding text) = text))

/-- Without padding at line ends and in front of parentheses of callables nothing is dropped. -/
theorem settled_of_tidy (tidy : text.Tidy) (clean : ¬ HasPaddedCallable text) : Settled text := by
  rw [Settled, substituteAll_eq_self fun _ ends => starPadding_eq_none tidy ends,
    tightened_eq_self clean]

theorem normalise_of_settled (settled : Settled text) : normalise text = closeOnOwnLine text :=
  congrArg closeOnOwnLine settled

theorem finish_of_settled (opens : text.Opens) (settled : Settled text) :
    finish true false text = completeMarkers (closeOnOwnLine text) := by
  rw [finish, if_neg, normalise_of_settled settled]
  · rfl
  · rw [List.isEmpty_iff]
    exact opens.ne_nil

/-! ## What remains behind a text -/

/--
What cleaning up makes of a text with which a line ends: a line still ends
there, with some character, and no description goes on that did not before.
-/
structure Remains (behind tail : Text) : Prop where
  ends : EndLine (scan (tail.dropWhile isPadding))
  proper : tail.dropWhile isPadding ≠ []
  halts : HaltsBehind (behind.dropWhile isPadding) → HaltsBehind (tail.dropWhile isPadding)
  star : tail.head? = some '*' → behind.head? = some '*'

theorem endLine_feed {broken : Text} (feed : IsFeed broken) (rest : Text) :
    EndLine (scan (broken ++ rest)) :=
  endLine_of_firstKind? (.inl (firstKind?_feed feed rest))

theorem haltsBehind_closer (rest : Text) : HaltsBehind (closer ++ rest) := by
  rintro broken more split (rfl | rfl)
  · cases split
  · cases split

/-- Behind the line break in front of the closing marker no description goes on. -/
theorem haltsBehind_closingLine (rest : Text) : HaltsBehind (closingLine ++ rest) := by
  rintro broken more split (rfl | rfl)
  · cases split
    exact .inl (endLine_of_firstKind? (.inr (firstKind?_closer rest)))
  · cases split

theorem haltsBehind_feed {broken rest : Text} (feed : IsFeed broken) :
    HaltsBehind (broken ++ rest) ↔ Halting (afterDecoration rest) := by
  constructor
  · intro halts
    exact halts broken rest rfl feed
  · intro halting broken' rest' split feed'
    rcases feed with rfl | rfl
    · rcases feed' with rfl | rfl
      · cases split
        exact halting
      · cases split
    · rcases feed' with rfl | rfl
      · cases split
      · cases split
        exact halting

section Padded

variable {padding rest : Text} (pads : ∀ c ∈ padding, isPadding c = true)
include pads

theorem dropWhile_padded {c : Char} (head : rest.head? = some c) (other : isPadding c = false) :
    (padding ++ rest).dropWhile isPadding = rest := by
  obtain ⟨more, rfl⟩ := List.head?_eq_some_iff.mp head
  rw [List.dropWhile_append_of_pos pads, List.dropWhile_cons_of_neg (Bool.eq_false_iff.mp other)]

/-- A line that ends with a line break behind padding. -/
theorem remains_feed {broken more : Text} (feed : IsFeed broken)
    (halts : Halting (afterDecoration rest) → Halting (afterDecoration more)) :
    Remains (padding ++ (broken ++ rest)) (padding ++ (broken ++ more)) := by
  have head : ∀ rest : Text, ∃ c, (broken ++ rest).head? = some c ∧ isPadding c = false ∧
      c ≠ '*' := by
    intro rest
    rcases feed with rfl | rfl
    · exact ⟨'\n', rfl, by decide, by decide⟩
    · exact ⟨'\r', rfl, by decide, by decide⟩
  obtain ⟨c, near, firm, -⟩ := head rest
  obtain ⟨d, far, dark, other⟩ := head more
  constructor
  case ends =>
    rw [dropWhile_padded pads far dark]
    exact endLine_feed feed more
  case proper =>
    rw [dropWhile_padded pads far dark]
    rcases feed with rfl | rfl
    · nofun
    · nofun
  case halts =>
    rw [dropWhile_padded pads far dark, dropWhile_padded pads near firm, haltsBehind_feed feed,
      haltsBehind_feed feed]
    exact halts
  case star =>
    intro star
    cases padding with
    | nil =>
        rw [List.nil_append, far] at star
        exact absurd (Option.some.inj star) other
    | cons e padding =>
        cases star
        exact absurd (pads '*' List.mem_cons_self) (by decide)

/-- A line that ends with the closing marker behind padding, which may be on the next line. -/
theorem remains_closer {more : Text}
    (closes : (∃ back, more = closer ++ back) ∨ ∃ back, more = closingLine ++ back)
    (star : padding = [] → more.head? = some '*' → behind.head? = some '*') :
    Remains behind (padding ++ more) := by
  have ends : EndLine (scan more) ∧ HaltsBehind more ∧ ∃ c, more.head? = some c ∧
      isPadding c = false := by
    rcases closes with ⟨back, rfl⟩ | ⟨back, rfl⟩
    · exact ⟨endLine_of_firstKind? (.inr (firstKind?_closer back)), haltsBehind_closer back, '*',
        rfl, by decide⟩
    · exact ⟨endLine_feed (.inl rfl) _, haltsBehind_closingLine back, '\n', rfl, by decide⟩
  obtain ⟨line, halts, c, head, dark⟩ := ends
  constructor
  case ends => rwa [dropWhile_padded pads head dark]
  case proper =>
    rw [dropWhile_padded pads head dark]
    rintro rfl
    cases head
  case halts =>
    rw [dropWhile_padded pads head dark]
    exact fun _ => halts
  case star =>
    cases padding with
    | nil => exact star rfl
    | cons e padding =>
        rintro ⟨⟩
        exact absurd (pads '*' List.mem_cons_self) (by decide)

end Padded

/-- The closing marker is moved off the line of a text, unless it stands on a line by itself. -/
theorem closeOnOwnLine_or (firm : ¬ EndsInBlank front) (occurs : closer <:+: behind) :
    closeOnOwnLine (front ++ behind) = front ++ behind ∨
      ∃ before back, behind = before ++ (closer ++ back) ∧
        Text.isAllBlank (lastLine (front ++ before)) = false ∧
          closeOnOwnLine (front ++ behind) =
            front ++ (Text.trimEnd before ++ (closingLine ++ back)) := by
  obtain ⟨before, back, split, found⟩ := exists_splitLast? occurs
  rw [closeOnOwnLine, found front]
  split
  · simp only []
    cases blank : Text.isAllBlank (lastLine (front ++ before)) with
    | true => exact .inl (if_pos rfl)
    | false =>
        refine .inr ⟨before, back, split, blank, (if_neg (by decide)).trans ?_⟩
        rw [trimEnd_append_of_firm firm, closingLine]
        simp only [List.append_assoc]
  · exact .inl rfl

/-- A closing marker behind a text without stars begins behind it. -/
theorem exists_of_starless {rest before back : Text} (starless : '*' ∉ front)
    (split : front ++ rest = before ++ (closer ++ back)) :
    ∃ line, before = front ++ line ∧ rest = line ++ (closer ++ back) := by
  rcases List.append_eq_append_iff.mp split with ⟨line, same, tail⟩ | ⟨line, same, tail⟩
  · exact ⟨line, same, tail⟩
  · cases line with
    | nil =>
        rw [List.append_nil] at same
        exact ⟨[], by rw [List.append_nil, same], tail.symm⟩
    | cons c line =>
        have star : '*' = c := (List.cons.inj tail).1
        refine absurd ?_ starless
        rw [same, star]
        exact List.mem_append_right _ List.mem_cons_self

theorem star_not_mem_feed {broken : Text} (feed : IsFeed broken) : '*' ∉ broken := by
  rcases feed with rfl | rfl
  · decide
  · decide

/-- A marker that is moved off its line has more than blanks between it and the
line break in front. -/
theorem exists_black {broken line : Text} (feed : IsFeed broken)
    (moved : Text.isAllBlank (lastLine (front ++ (broken ++ line))) = false) :
    ∃ c ∈ line, isBlank c = false := by
  by_contra blank
  simp only [not_exists, not_and, Bool.not_eq_false] at blank
  refine Bool.eq_false_iff.mp moved (List.all_eq_true.mpr fun c mem => blank c ?_)
  rcases feed with rfl | rfl
  · exact mem_of_mem_lastLine mem
  · rw [← List.singleton_append, List.append_assoc, ← List.append_assoc front] at mem
    exact mem_of_mem_lastLine mem

/-- Moving the closing marker leaves the end of a line as it is, or puts the marker
on the next one. -/
theorem remains_of_moved {before back : Text} (ends : EndLine (scan (behind.dropWhile isPadding)))
    (split : behind = before ++ (closer ++ back))
    (moved : Text.isAllBlank (lastLine (front ++ before)) = false) :
    Remains behind (Text.trimEnd before ++ (closingLine ++ back)) := by
  obtain ⟨padding, rest, whole, pads, drop⟩ : ∃ padding rest : Text, behind = padding ++ rest ∧
      (∀ c ∈ padding, isPadding c = true) ∧ behind.dropWhile isPadding = rest :=
    ⟨_, _, List.takeWhile_append_dropWhile.symm, fun c mem => List.mem_takeWhile_imp mem, rfl⟩
  have starless : '*' ∉ padding := fun mem => absurd (pads '*' mem) (by decide)
  rw [drop] at ends
  obtain ⟨line, rfl, rfl⟩ := exists_of_starless starless (whole.symm.trans split)
  rcases exists_of_endLine ends with empty | ⟨broken, more, same, feed⟩ | ⟨more, same⟩
  · exact absurd (congrArg List.length empty) (by simp [closer])
  · obtain ⟨line, rfl, rfl⟩ := exists_of_starless (star_not_mem_feed feed) same.symm
    rw [← List.append_assoc front] at moved
    obtain ⟨c, mem, black⟩ := exists_black feed moved
    have trimmed : Text.trimEnd (padding ++ (broken ++ line)) =
        padding ++ (broken ++ Text.trimEnd line) := by
      rw [← List.append_assoc, trimEnd_append_of_not_blank mem black, List.append_assoc]
    rw [whole, same, trimmed, List.append_assoc, List.append_assoc]
    refine remains_feed pads feed fun halting => ?_
    obtain ⟨blanks, whole, blank⟩ := exists_trimEnd line
    have next : ∃ c, (blanks ++ (closer ++ back)).head? = some c ∧
        (isBlank c = true ∨ c = '*') := by
      cases blanks with
      | nil => exact ⟨'*', rfl, .inr rfl⟩
      | cons c blanks => exact ⟨c, rfl, .inl (blank c List.mem_cons_self)⟩
    refine halting_afterDecoration_feed (not_endsInBlank_trimEnd line) next ?_ _
    rwa [← List.append_assoc, ← whole]
  · cases line with
    | nil =>
        rw [List.append_nil, trimEnd_eq_nil fun c mem => isBlank_of_isPadding (pads c mem)]
        exact remains_closer (by simp) (.inr ⟨back, rfl⟩) (by rintro _ ⟨⟩)
    | cons c line =>
        cases line with
        | nil =>
            have slash := (List.cons.inj (List.cons.inj same).2).1
            exact absurd slash (by decide)
        | cons d line =>
            obtain ⟨star, same⟩ := List.cons.inj same
            obtain ⟨rfl, -⟩ := List.cons.inj same
            cases star
            have trimmed : Text.trimEnd (padding ++ closer ++ line) =
                padding ++ (closer ++ Text.trimEnd line) := by
              rw [Text.trimEnd_append_of_firm (Text.not_endsInBlank_append (by decide)
                (Text.not_endsInBlank_of_getLast? rfl rfl) padding), List.append_assoc]
            rw [List.append_assoc padding closer] at trimmed
            change Remains behind (Text.trimEnd (padding ++ (closer ++ line)) ++ _)
            rw [trimmed, List.append_assoc, List.append_assoc]
            refine remains_closer pads (.inl ⟨_, rfl⟩) fun empty _ => ?_
            rw [whole, empty]
            rfl

/-- A line that ends in its text as it is, in front of a closing marker. -/
theorem remains_self (ends : EndLine (scan (behind.dropWhile isPadding)))
    (occurs : closer <:+: behind) :
    Remains behind behind where
  ends := ends
  proper := by
    intro empty
    rw [List.dropWhile_eq_nil_iff] at empty
    exact absurd (empty '*' (occurs.subset List.mem_cons_self)) (by decide)
  halts halts := halts
  star star := star

/-- A marker that is added stands behind the end of the line. -/
theorem remains_of_unclosed (ends : EndLine (scan (behind.dropWhile isPadding)))
    (absent : ¬ closer <:+: behind) :
    Remains behind (behind ++ closingLine) ∧
    ('\n' ∉ behind → Remains behind (behind ++ ' ' :: closer)) := by
  obtain ⟨padding, rest, whole, pads, drop⟩ : ∃ padding rest : Text, behind = padding ++ rest ∧
      (∀ c ∈ padding, isPadding c = true) ∧ behind.dropWhile isPadding = rest :=
    ⟨_, _, List.takeWhile_append_dropWhile.symm, fun c mem => List.mem_takeWhile_imp mem, rfl⟩
  rw [drop] at ends
  rcases exists_of_endLine ends with rfl | ⟨broken, more, rfl, feed⟩ | ⟨more, rfl⟩
  · rw [List.append_nil] at whole
    have padded : ∀ c ∈ padding ++ [' '], isPadding c = true := by
      intro c mem
      rcases List.mem_append.mp mem with held | held
      · exact pads c held
      · exact List.mem_singleton.mp held ▸ rfl
    constructor
    · rw [whole]
      exact remains_closer pads (.inr ⟨[], rfl⟩) fun _ head => nomatch head
    · intro _
      have spaced : Remains behind (padding ++ [' '] ++ closer) :=
        remains_closer padded (.inl ⟨[], rfl⟩) (by simp)
      rw [List.append_assoc] at spaced
      rw [whole] at spaced ⊢
      exact spaced
  · constructor
    · have goesOn : Remains (padding ++ (broken ++ more))
          (padding ++ (broken ++ (more ++ closingLine))) := by
        refine remains_feed pads feed fun halting => ?_
        rw [closingLine, List.cons_append, afterDecoration_feed]
        exact halting_feed halting _
      rw [whole]
      simpa only [List.append_assoc] using goesOn
    · intro unbroken
      refine absurd ?_ unbroken
      rw [whole]
      rcases feed with rfl | rfl
      · simp
      · simp
  · refine absurd ?_ absent
    rw [whole]
    exact ⟨padding, more, List.append_assoc _ _ _⟩

/-- Behind a text that stays, the end of its line remains one when the markers are put in order. -/
theorem exists_remains (opens : front.Opens) (settled : Settled (front ++ behind))
    (firm : ¬ EndsInBlank front) (ends : EndLine (scan (behind.dropWhile isPadding)))
    (closes : closer <:+: behind ∨ ¬ closer <:+: front ++ behind) :
    ∃ tail, finish true false (front ++ behind) = front ++ tail ∧ Remains behind tail := by
  rw [finish_of_settled (opens.append behind) settled]
  rcases closes with occurs | absent
  · have complete : ∀ tail, closer <:+: tail → completeMarkers (front ++ tail) = front ++ tail := by
      intro tail held
      exact completeMarkers_of_closes (opens.append tail)
        (held.trans (List.suffix_append front tail).isInfix)
    rcases closeOnOwnLine_or firm occurs with same | ⟨before, back, split, moved, same⟩
    · rw [same, complete behind occurs]
      exact ⟨behind, rfl, remains_self ends occurs⟩
    · rw [same, complete]
      · exact ⟨_, rfl, remains_of_moved ends split moved⟩
      · exact ⟨Text.trimEnd before ++ ['\n', ' '], back, by simp [closingLine]⟩
  · have lacks : ¬ closer <:+: behind :=
      fun occurs => absent (occurs.trans (List.suffix_append front behind).isInfix)
    have stays : closeOnOwnLine (front ++ behind) = front ++ behind := by
      rw [closeOnOwnLine, splitLast?_of_absent absent]
      exact ite_self _
    obtain ⟨broken, whole⟩ := remains_of_unclosed ends lacks
    rw [stays, completeMarkers_eq (opens.append behind), if_neg absent]
    split
    · exact ⟨behind ++ closingLine, by simp [closingLine], broken⟩
    · next unbroken =>
        refine ⟨behind ++ ' ' :: closer, List.append_assoc _ _ _, whole fun mem => unbroken ?_⟩
        exact List.mem_append_right front mem

end Cleanup

end DocComment
