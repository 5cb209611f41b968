import DocComment.Proofs.Reading.Thinned
import DocComment.Proofs.Reading.Trimmed
import DocComment.Proofs.Rendering.Beginning
import DocComment.Proofs.Rendering.Remains

/-!
# Cleaning up above a closing marker

Where the closing marker of a comment stands on a line of its own, cleaning up drops
padding behind stars at the ends of the lines above it, and changes nothing else there
(`exists_finish`): a closing marker that is put on a new line is this one or stands
behind it.
-/

namespace DocComment

namespace Cleanup

open Text Token

/-- What stands in front of a closing marker on its line: padding, perhaps around a star. -/
def IsFoot (line : Text) : Prop :=
  (∀ c ∈ line, isPadding c = true) ∨ ∃ indentation padding, line = indentation ++ '*' :: padding ∧
    (∀ c ∈ indentation, isPadding c = true) ∧ ∀ c ∈ padding, isPadding c = true

theorem IsFoot.unbroken {line : Text} (foot : IsFoot line) : '\n' ∉ line := by
  rcases foot with pads | ⟨indentation, padding, rfl, pads, pads'⟩
  · exact fun mem => by cases pads _ mem
  · intro mem
    rcases List.mem_append.mp mem with mem | mem
    · cases pads _ mem
    · rcases List.mem_cons.mp mem with same | mem
      · cases same
      · cases pads' _ mem

/-! ## Stars -/

/-- A slash ends no line. -/
theorem starPadding_eq_none_of_slash {c : Char} {front : Text} (unbroken : '\n' ∉ front)
    (rest : Text) :
    starPadding (c :: (front ++ '/' :: rest)) = none := by
  cases found : starPadding (c :: (front ++ '/' :: rest)) with
  | none => rfl
  | some result =>
      obtain ⟨padding, back, split, -, -, pads, ends, -⟩ := starPadding_eq_some_iff.mp found
      have slash : '/' ∉ '*' :: padding := fun mem => by
        rcases List.mem_cons.mp mem with same | mem
        · cases same
        · cases pads _ mem
      rcases List.append_eq_append_iff.mp
          (show front ++ '/' :: rest = ('*' :: padding) ++ back from split) with
        ⟨more, whole, rest'⟩ | ⟨more, whole, rest'⟩
      · cases more with
        | nil =>
            rw [List.nil_append] at rest'
            rw [← rest'] at ends
            cases ends
        | cons d more =>
            obtain ⟨rfl, -⟩ := List.cons.inj rest'
            exact absurd (whole ▸ List.mem_append_right _ List.mem_cons_self) slash
      · cases more with
        | nil =>
            rw [List.nil_append] at rest'
            rw [rest'] at ends
            cases ends
        | cons d more =>
            rw [rest', List.cons_append, isLineEnd] at ends
            cases beq_iff_eq.mp ends
            exact absurd (whole ▸ List.mem_append_right _ List.mem_cons_self) unbroken

theorem starPadding_le_length {text replacement : Text} {taken : Nat}
    (found : starPadding text = some (taken, replacement)) :
    taken ≤ text.length := by
  cases text with
  | nil => cases found
  | cons c text =>
      obtain ⟨padding, back, rfl, -, -, -, -, same⟩ := starPadding_eq_some_iff.mp found
      cases same
      rw [List.length_cons, List.length_cons, List.length_append]
      omega

/-- Above a closing marker stars are seen without what stands from there on. -/
theorem substituteAll_starPadding_feed (body : Text) {line : Text} (unbroken : '\n' ∉ line)
    (tail : Text) :
    ∃ tail', substituteAll starPadding (body ++ '\n' :: (line ++ (closer ++ tail))) =
      substituteAll starPadding body ++ '\n' :: (line ++ (closer ++ tail')) := by
  rw [substituteAll_append (fun _ _ _ found => starPadding_le_length found) fun part proper _ =>
    starPadding_append_feed proper _]
  have copied {front : Text} (unbroken : '\n' ∉ front) (c : Char) (rest : Text) :
      substituteAll starPadding (c :: (front ++ '/' :: rest)) =
        c :: (front ++ substituteAll starPadding ('/' :: rest)) := by
    induction front generalizing c with
    | nil =>
        rw [substituteAll_cons_of_none (starPadding_eq_none_of_slash unbroken rest)]
        rfl
    | cons d front ih =>
        rw [substituteAll_cons_of_none (starPadding_eq_none_of_slash unbroken rest),
          List.cons_append, ih (fun mem => unbroken (List.mem_cons_of_mem _ mem))]
        rfl
  have unbroken' : '\n' ∉ line ++ ['*'] :=
    fun mem => (List.mem_append.mp mem).elim unbroken (by decide)
  have whole := copied unbroken' '\n' tail
  obtain ⟨tail', same⟩ := List.head?_eq_some_iff.mp (head?_starPadding ('/' :: tail))
  refine ⟨tail', congrArg _ ?_⟩
  rw [same] at whole
  simpa only [closer, List.append_assoc, List.cons_append, List.nil_append] using whole

/-! ## The closing marker -/

/-- A closing marker is put on a new line below the lines that stand above the foot of a comment. -/
theorem closeOnOwnLine_foot (body : Text) {line : Text} (foot : IsFoot line) (tail : Text) :
    ∃ last, closeOnOwnLine (body ++ '\n' :: (line ++ (closer ++ tail))) = body ++ '\n' :: last ∧
      ((∃ tail', last = line ++ (closer ++ tail')) ∨
        ∃ indentation tail', (∀ c ∈ indentation, isPadding c = true) ∧
        last = indentation ++ '*' :: (closingLine ++ tail')) := by
  obtain ⟨before, behind, split, found⟩ :=
    @exists_splitLast? closer (closer ++ tail) (List.prefix_append _ _).isInfix
  have whole : body ++ '\n' :: (line ++ (closer ++ tail)) =
      (body ++ '\n' :: line) ++ (closer ++ tail) := by
    simp only [List.append_assoc, List.cons_append]
  have stays : ∃ last, (body ++ '\n' :: (line ++ (closer ++ tail))) = body ++ '\n' :: last ∧
      ((∃ tail', last = line ++ (closer ++ tail')) ∨
        ∃ indentation tail', (∀ c ∈ indentation, isPadding c = true) ∧
        last = indentation ++ '*' :: (closingLine ++ tail')) := ⟨_, rfl, .inl ⟨tail, rfl⟩⟩
  rw [closeOnOwnLine, whole, found, ← whole]
  split
  next =>
    dsimp only
    split
    next => exact stays
    next moved =>
      have ended {text : Text} {c : Char} (black : isBlank c = false) :
          trimEnd (text ++ [c]) = text ++ [c] :=
        trimEnd_eq_self (not_endsInBlank_of_getLast? List.getLast?_concat black)
      cases before with
      | nil =>
          rw [List.append_nil] at moved ⊢
          rcases foot with pads | ⟨indentation, padding, rfl, pads, pads'⟩
          · refine absurd (List.all_eq_true.mpr fun c mem => ?_) moved
            exact isBlank_of_isPadding (pads c (mem_of_mem_lastLine mem))
          · have parts : body ++ '\n' :: (indentation ++ '*' :: padding) =
                ((body ++ '\n' :: indentation) ++ ['*']) ++ padding := by
              simp only [List.append_assoc, List.cons_append, List.nil_append]
            refine ⟨indentation ++ '*' :: (closingLine ++ behind), ?_,
              .inr ⟨indentation, behind, pads, rfl⟩⟩
            rw [parts, trimEnd_append_of_blank fun c mem => isBlank_of_isPadding (pads' c mem),
              ended (by decide)]
            simp only [closingLine, List.append_assoc, List.cons_append, List.nil_append]
      | cons c before =>
          obtain ⟨rfl, further⟩ := List.cons.inj split
          cases before with
          | nil => cases further
          | cons c before =>
              obtain ⟨rfl, -⟩ := List.cons.inj further
              have parts : body ++ '\n' :: line ++ '*' :: '/' :: before =
                  ((body ++ '\n' :: (line ++ ['*'])) ++ ['/']) ++ before := by
                simp only [List.append_assoc, List.cons_append, List.nil_append]
              have firm : ¬ EndsInBlank ((body ++ '\n' :: (line ++ ['*'])) ++ ['/']) :=
                not_endsInBlank_of_getLast? List.getLast?_concat rfl
              refine ⟨line ++ (closer ++ (trimEnd before ++ (closingLine ++ behind))), ?_,
                .inl ⟨_, rfl⟩⟩
              rw [parts, trimEnd_append_of_firm firm]
              simp only [closer, closingLine, List.append_assoc, List.cons_append, List.nil_append]
  next => exact stays

/-- A closing marker that is put on a new line leaves the end of the text as it was. -/
theorem getLast?_closeOnOwnLine (text : Text) : (closeOnOwnLine text).getLast? = text.getLast? := by
  rw [closeOnOwnLine]
  split
  next =>
    by_cases occurs : closer <:+: text
    · obtain ⟨before, behind, split, found⟩ := exists_splitLast? occurs
      have whole := found []
      rw [List.nil_append, List.nil_append] at whole
      rw [whole]
      dsimp only
      split
      next => rfl
      next =>
        have marked (front : Text) :
            (front ++ closer ++ behind).getLast? = behind.getLast?.or (some '/') := by
          rw [List.getLast?_append, List.getLast?_append]
          rfl
        rw [marked, split, ← List.append_assoc, marked]
    · rw [splitLast?_of_absent occurs]
  next => rfl

/-- What stands behind the last line feed above the closing marker of a comment. -/
def IsLast (last : Text) : Prop :=
  (∃ line tail, last = line ++ (closer ++ tail) ∧ IsFoot line) ∨
    ∃ indentation tail, last = indentation ++ '*' :: (closingLine ++ tail) ∧ ∀ c ∈ indentation, isPadding c = true

theorem IsLast.exists_closer {last : Text} (isLast : IsLast last) :
    ∃ before behind, last = before ++ closer ++ behind := by
  rcases isLast with ⟨line, tail, rfl, -⟩ | ⟨indentation, tail, rfl, -⟩
  · exact ⟨line, tail, (List.append_assoc _ _ _).symm⟩
  · refine ⟨indentation ++ ['*', '\n', ' '], tail, ?_⟩
    simp only [closingLine, List.append_assoc, List.cons_append, List.nil_append]

/-- Cleaning up trims the lines above the last one. -/
theorem exists_finish {front body line tail : Text} (pads : ∀ c ∈ front, isPadding c = true)
    (foot : IsFoot line)
    (clean :
      ¬ HasPaddedCallable (front ++ (opener ++ (body ++ '\n' :: (line ++ (closer ++ tail)))))) :
    ∃ body' last', finish true false
      (front ++ (opener ++ (body ++ '\n' :: (line ++ (closer ++ tail))))) =
        front ++ (opener ++ (body' ++ '\n' :: last')) ∧
      Trimmed (· = some '*') body body' ∧ IsLast last' ∧
      ((front ++ (opener ++ (body' ++ '\n' :: last'))).getLast? =
          (front ++ (opener ++ (body ++ '\n' :: (line ++ (closer ++ tail))))).getLast? ∨
        (front ++ (opener ++ (body' ++ '\n' :: last'))).getLast? = some '*') := by
  obtain ⟨tail', starred⟩ := substituteAll_starPadding_feed body foot.unbroken tail
  have stars : substituteAll starPadding
      (front ++ (opener ++ (body ++ '\n' :: (line ++ (closer ++ tail))))) =
      front ++
      (opener ++ (substituteAll starPadding body ++ '\n' :: (line ++ (closer ++ tail')))) := by
    rw [starPadding_begins pads, starred]
  have tight := (trimmed_starPadding _).not_hasPaddedCallable clean
  have parts {body rest : Text} : front ++ (opener ++ (body ++ '\n' :: rest)) =
      (front ++ (opener ++ body)) ++ '\n' :: rest := by
    simp only [List.append_assoc]
  obtain ⟨last', closed, either⟩ :=
    closeOnOwnLine_foot (front ++ (opener ++ substituteAll starPadding body)) foot tail'
  have moved :
      closeOnOwnLine
      (substituteAll starPadding
        (front ++ (opener ++ (body ++ '\n' :: (line ++ (closer ++ tail)))))) =
      front ++ (opener ++ (substituteAll starPadding body ++ '\n' :: last')) := by
    rw [stars, parts, closed, ← parts]
  have normal : normalise (front ++ (opener ++ (body ++ '\n' :: (line ++ (closer ++ tail))))) =
      front ++ (opener ++ (substituteAll starPadding body ++ '\n' :: last')) := by
    have tightened : Text.substituteAll callablePadding _ = _ := tightened_eq_self tight
    rw [normalise, tightened, moved]
  have opens (rest : Text) : Text.Opens (front ++ (opener ++ rest)) := ⟨front, rest, pads, rfl⟩
  have last : IsLast last' := by
    rcases either with ⟨tail, rfl⟩ | ⟨indentation, tail, pads, rfl⟩
    · exact .inl ⟨line, tail, rfl, foot⟩
    · exact .inr ⟨indentation, tail, rfl, pads⟩
  have occurs : closer <:+:
      front ++ (opener ++ (substituteAll starPadding body ++ '\n' :: last')) := by
    obtain ⟨before, behind, rfl⟩ := last.exists_closer
    exact ⟨front ++ (opener ++ (substituteAll starPadding body ++ '\n' :: before)), behind, by
      simp only [List.append_assoc, List.cons_append]⟩
  refine ⟨_, last', ?_, trimmed_starPadding body, last, ?_⟩
  swap
  · rw [← moved, getLast?_closeOnOwnLine]
    exact (trimmed_starPadding _).getLast?
  rw [finish, if_neg (by rw [List.isEmpty_iff]; exact (opens _).ne_nil)]
  dsimp only
  rw [if_pos rfl, if_neg (by decide), normal, completeMarkers_of_closes (opens _) occurs]

end Cleanup

namespace Dialect

open Token Cleanup

variable {dialect : Dialect}

theorem tagNames_of_paddings {lines : List (List Token)}
    (soft : ∀ line ∈ lines, ∀ token ∈ line, token.kind = .padding)
    (depth : Nat) : tagNames dialect depth lines = [] := by
  induction lines generalizing depth with
  | nil => rfl
  | cons line lines ih =>
      obtain ⟨first, others⟩ := List.forall_mem_cons.mp soft
      by_cases flat : depth = 0
      · rw [flat, tagNames_of_padding first, ih others]
      · rw [tagNames_of_open flat, ih others]

theorem scan_closer (tail : Text) : scan (closer ++ tail) = ⟨.closing, closer⟩ :: scan tail :=
  @scan_append '*' ['/'] tail .closing rfl (by decide)

/-- Padding in front of a closing marker is no tag. -/
theorem namesIn_padded_closer {padding : Text} (pads : ∀ c ∈ padding, isPadding c = true)
    (tail : Text) (depth : Nat) :
    namesIn dialect depth (padding ++ (closer ++ tail)) = [] := by
  obtain ⟨soft, whole, all⟩ :
      ∃ soft, scan (padding ++ (closer ++ tail)) = soft ++ ⟨.closing, closer⟩ :: scan tail ∧
      ∀ token ∈ soft, token.kind = .padding := by
    cases padding with
    | nil => exact ⟨[], scan_closer tail, List.forall_mem_nil _⟩
    | cons c padding =>
        refine ⟨[⟨.padding, c :: padding⟩], ?_, List.forall_mem_singleton.mpr rfl⟩
        rw [List.cons_append, scan_padding pads (by rintro d ⟨⟩; rfl), scan_closer]
        rfl
  rw [namesIn, whole, beforeClosing_append (unclosed_of_padding all), beforeClosing,
    List.takeWhile_cons_of_neg (by decide), List.append_nil, lines_of_padding all]
  exact tagNames_of_paddings (List.forall_mem_singleton.mpr all) depth

/-- The last line of a comment has no tags. -/
theorem namesIn_of_isLast {last : Text} (isLast : IsLast last) (depth : Nat) :
    namesIn dialect depth (last.drop (decorationLength last)) = [] := by
  -- A star behind the indentation belongs to the decoration, and what follows is left.
  have starred {indentation rest : Text} (pads : ∀ c ∈ indentation, isPadding c = true)
      (slash : rest.head? ≠ some '/') :
      (indentation ++ '*' :: rest).drop (decorationLength (indentation ++ '*' :: rest)) = rest := by
    have star : decorationLength ('*' :: rest) = 1 := by
      rw [decorationLength_cons, if_neg (by decide), if_pos ⟨rfl, slash⟩]
    rw [decorationLength_append_of_padding pads, star, ← List.drop_drop, List.drop_left]
    rfl
  rcases isLast with ⟨line, tail, rfl, pads | ⟨indentation, padding, rfl, pads, pads'⟩⟩ |
    ⟨indentation, tail, rfl, pads⟩
  · have none : decorationLength (closer ++ tail) = 0 := by
      rw [show closer ++ tail = '*' :: '/' :: tail from rfl, decorationLength_cons,
        if_neg (by decide), if_neg fun both => both.2 rfl]
    rw [decorationLength_append_of_padding pads, none, Nat.add_zero, List.drop_left]
    exact @namesIn_padded_closer dialect [] (List.forall_mem_nil _) tail depth
  · rw [List.append_assoc, List.cons_append, starred pads]
    · exact namesIn_padded_closer pads' tail depth
    · cases padding with
      | nil => simp [closer]
      | cons c padding =>
          rintro ⟨⟩
          cases pads' _ List.mem_cons_self
  · rw [starred pads (by simp [closingLine])]
    have split : closingLine ++ tail = '\n' :: ([' '] ++ (closer ++ tail)) := rfl
    have bare : ([' '] ++ (closer ++ tail)).drop (decorationLength ([' '] ++ (closer ++ tail))) =
      closer ++ tail := rfl
    have whole : scan (closingLine ++ tail) =
        [] ++ ⟨.lineBreak, ['\n', ' ']⟩ :: scan (closer ++ tail) := by
      rw [split, scan_feed, bare]
      rfl
    rw [namesIn_of_lines whole, if_pos (List.forall_mem_nil _), scan_closer, beforeClosing,
      List.takeWhile_cons_of_neg (by decide)]
    refine tagNames_of_paddings ?_ depth
    decide

end Dialect

end DocComment
