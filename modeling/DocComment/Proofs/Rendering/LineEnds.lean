import DocComment.Proofs.Rendering.Filling
import DocComment.Proofs.Rendering.Normal

/-!
# The ends of lines

In a source without padding at the ends of its lines an entry reaches to the
end of its line, and leaving out spans that begin at line breaks leaves no
padding at the end of a line (`tidy_gap`).
-/

namespace DocComment

open Token

/-! ## Line ends -/

namespace Text

/-- Whether a line ends in front of a text. -/
def EndsLine (behind : Text) : Prop :=
  behind = [] ∨ ['\n'] <+: behind ∨ ['\r', '\n'] <+: behind

/-- No line of the text ends in a space or a tab. -/
def NoTrailingPadding (text : Text) : Prop :=
  ∀ front c back, text = front ++ c :: back → isPadding c = true → ¬ EndsLine back

instance : DecidablePred EndsLine := fun behind =>
  inferInstanceAs (Decidable (behind = [] ∨ ['\n'] <+: behind ∨ ['\r', '\n'] <+: behind))

theorem noTrailingPadding_cons {c : Char} {rest : Text} :
    NoTrailingPadding (c :: rest) ↔
      (isPadding c = true → ¬ EndsLine rest) ∧ NoTrailingPadding rest := by
  constructor
  · intro trimmed
    exact ⟨trimmed [] c rest rfl, fun front d back split =>
      trimmed (c :: front) d back (congrArg (c :: ·) split)⟩
  · rintro ⟨here, later⟩ front d back split
    cases front with
    | nil =>
        obtain ⟨rfl, rfl⟩ := List.cons.inj split
        exact here
    | cons e front => exact later front d back (List.cons.inj split).2

instance decidableNoTrailingPadding : DecidablePred NoTrailingPadding
  | [] => isTrue fun front c back split => by simp at split
  | c :: rest =>
      have := decidableNoTrailingPadding rest
      decidable_of_iff ((isPadding c = true → ¬ EndsLine rest) ∧ NoTrailingPadding rest)
        noTrailingPadding_cons.symm

theorem isLineEnd_eq_false {behind : Text} (goesOn : ¬ EndsLine behind) :
    Cleanup.isLineEnd behind = false := by
  cases behind with
  | nil => exact absurd (Or.inl rfl) goesOn
  | cons c rest =>
      rw [Cleanup.isLineEnd, beq_eq_false_iff_ne]
      rintro rfl
      exact goesOn (Or.inr (Or.inl ⟨rest, rfl⟩))

theorem isLineEnd_append {first : Text} (second : Text) (nonempty : first ≠ []) :
    Cleanup.isLineEnd (first ++ second) = Cleanup.isLineEnd first := by
  obtain ⟨c, rest, rfl⟩ := List.exists_cons_of_ne_nil nonempty
  rfl

end Text

namespace Token

/-- The only closing marker stands behind a line break, and nothing but blanks stand behind it. -/
def ClosesAlone (tokens : List Token) : Prop :=
  ∃ body feed rest, tokens = body ++ feed :: ⟨.closing, Cleanup.closer⟩ :: rest ∧
    feed.kind = .lineBreak ∧ (∀ token ∈ body, token.kind ≠ .closing) ∧
      ∀ token ∈ rest, ∀ c ∈ token.text, isBlank c = true

namespace IsBreakText

variable {text : Text}

theorem endsLine (broken : IsBreakText text) (rest : Text) : Text.EndsLine (text ++ rest) := by
  obtain ⟨carriage, indentation, star, rfl, rfl | rfl, _⟩ := broken
  · exact Or.inr (Or.inl ⟨indentation ++ star ++ rest, by simp⟩)
  · exact Or.inr (Or.inr ⟨indentation ++ star ++ rest, by simp⟩)

theorem divides_head (broken : IsBreakText text) (rest : Text) :
    ∀ c, (text ++ rest).head? = some c → Cleanup.divides c = true := by
  obtain ⟨carriage, indentation, star, rfl, rfl | rfl, _⟩ := broken
  · rintro c same
    cases same
    decide
  · rintro c same
    cases same
    decide

/-- Behind its line feed or its star a line break has only padding. -/
theorem exists_divider (broken : IsBreakText text) :
    ∃ front c padding, text = front ++ c :: padding ∧ Cleanup.divides c = true ∧
      ∀ d ∈ padding, isPadding d = true := by
  obtain ⟨carriage, indentation, star, rfl, _, all, rfl | rfl⟩ := broken
  · exact ⟨carriage, '\n', indentation, by simp, by decide, all⟩
  · exact ⟨carriage ++ '\n' :: indentation, '*', [], by simp, by decide, by simp⟩

end IsBreakText

section Scanned

variable {text front back : Text} {place : Nat} {token : Token} {c : Char}

theorem endsLine_of_lineBreak (broken : kindAt? (scan text) place = some .lineBreak) :
    Text.EndsLine (textOf ((scan text).drop place)) := by
  obtain ⟨token, found, kind, cut⟩ := isPiece_of_kindAt? broken (by decide)
  obtain ⟨within, same⟩ := List.getElem?_eq_some_iff.mp found
  rw [List.drop_eq_getElem_cons within, same, textOf_cons]
  exact (cut.text_of_lineBreak kind).endsLine _

/-- No line ends behind padding in a token. -/
theorem not_endsLine_of_getElem? (trimmed : text.NoTrailingPadding)
    (found : (scan text)[place]? = some token) (whole : token.text = front ++ c :: back)
    (padding : isPadding c = true) :
    ¬ Text.EndsLine (back ++ textOf ((scan text).drop (place + 1))) := by
  refine trimmed (textOf ((scan text).take place) ++ front) c _ ?_ padding
  conv_lhs => rw [text_eq_of_getElem? found, whole]
  simp

end Scanned

namespace Tiles

variable {text : Text} {tokens : List Token} {opening close : Nat} {spans : List Span}

/-- The closing marker stands between a line break and blanks. -/
theorem closesAlone (tiles : Tiles tokens opening close spans) (alone : ClosesAlone tokens) :
    ∃ body feed rest, tokens = body ++ feed :: ⟨.closing, Cleanup.closer⟩ :: rest ∧
      feed.kind = .lineBreak ∧ close = body.length + 1 ∧
        ∀ token ∈ rest, ∀ c ∈ token.text, isBlank c = true := by
  obtain ⟨body, feed, rest, rfl, broken, none, blank⟩ := alone
  have last : kindAt? (body ++ feed :: ⟨.closing, Cleanup.closer⟩ :: rest) (body.length + 1) =
      some .closing := by
    simp [kindAt?]
  have before : kindAt? (body ++ feed :: ⟨.closing, Cleanup.closer⟩ :: rest) body.length =
      some .lineBreak := by
    simp [kindAt?, broken]
  have high : close ≤ body.length + 1 := by
    by_contra beyond
    exact tiles.unclosed _ (Nat.not_le.mp beyond) last
  have low : body.length < close := by
    by_contra inside
    have within := lt_length_of_kindAt? before
    obtain ⟨kind, stands⟩ := exists_kindAt? (Nat.lt_of_le_of_lt (Nat.not_lt.mp inside) within)
    rw [tiles.closes kind stands] at stands
    rcases Nat.lt_or_eq_of_le (Nat.not_lt.mp inside) with among | same
    · obtain ⟨token, found, closing⟩ := kindAt?_eq_some_iff.mp stands
      rw [List.getElem?_append_left among] at found
      exact none token (List.mem_of_getElem? found) closing
    · rw [same, before] at stands
      cases stands
  exact ⟨body, feed, rest, rfl, broken, by omega, blank⟩

/-- The token in front of the closing marker is a line break. -/
theorem kindAt?_of_closesAlone (tiles : Tiles tokens opening close spans)
    (alone : ClosesAlone tokens) {place : Nat} (front : place + 1 = close) :
    kindAt? tokens place = some .lineBreak := by
  obtain ⟨body, feed, rest, rfl, broken, same, _⟩ := tiles.closesAlone alone
  rw [show place = body.length by omega]
  simp [kindAt?, broken]

theorem kindAt?_close (tiles : Tiles tokens opening close spans) (alone : ClosesAlone tokens) :
    kindAt? tokens close = some .closing := by
  obtain ⟨body, feed, rest, rfl, _, rfl, _⟩ := tiles.closesAlone alone
  simp [kindAt?]

/-- No other closing marker stands behind it. -/
theorem not_closing_behind (tiles : Tiles (scan text) opening close spans)
    (alone : ClosesAlone (scan text)) {place : Nat} (behind : close < place) :
    kindAt? (scan text) place ≠ some .closing := by
  intro stands
  obtain ⟨token, found, kind, cut⟩ := isPiece_of_kindAt? stands (by decide)
  obtain ⟨body, feed, rest, whole, _, rfl, blank⟩ := tiles.closesAlone alone
  obtain ⟨more, rfl⟩ : ∃ more, place = body.length + (more + 2) :=
    ⟨place - (body.length + 2), by omega⟩
  rw [whole, List.getElem?_append_right (Nat.le_add_right _ _), Nat.add_sub_cancel_left,
    List.getElem?_cons_succ, List.getElem?_cons_succ] at found
  have star := blank token (List.mem_of_getElem? found) '*' (by simp [cut.text_of_closing kind])
  cases star

/-- Nothing is lost of the closing marker and of what stands behind it. -/
theorem isEnding_of_closesAlone (tiles : Tiles tokens opening close spans)
    (alone : ClosesAlone tokens) {omitted : List Span}
    (clear : ∀ other ∈ omitted, other.stop ≤ close) :
    Cleanup.IsEnding (Layout.gap tokens omitted close tokens.length) := by
  obtain ⟨body, feed, rest, rfl, _, rfl, blank⟩ := tiles.closesAlone alone
  rw [Layout.gap_eq_textBetween]
  · refine ⟨textOf rest, ?_, fun c mem => ?_⟩
    · rw [textBetween, List.take_length]
      simp
    · obtain ⟨token, among, inside⟩ := List.mem_flatMap.mp mem
      exact blank token among c inside
  · intro place low _ other among
    rw [← Bool.not_eq_true, Span.contains_iff]
    have stop := clear other among
    omega

/-- Where no line ends in padding, an entry reaches to the end of its line. -/
theorem ends_of_noTrailingPadding (tiles : Tiles (scan text) opening close spans)
    (alone : ClosesAlone (scan text)) (trimmed : text.NoTrailingPadding) {span : Span}
    (mem : span ∈ spans) :
    kindAt? (scan text) span.stop = some .lineBreak ∨ span.stop = close := by
  obtain ⟨stop, padded, ends⟩ := tiles.trailed span mem
  rcases Nat.lt_or_eq_of_le padded.start_le with lt | same
  · obtain ⟨last, rfl⟩ : ∃ last, stop = last + 1 := ⟨stop - 1, by omega⟩
    have padding := padded.padding last (by omega) (Nat.lt_succ_self last)
    have broken : kindAt? (scan text) (last + 1) = some .lineBreak := by
      refine ends.resolve_right fun closed => ?_
      rw [tiles.kindAt?_of_closesAlone alone closed] at padding
      cases padding
    obtain ⟨token, found, kind, cut⟩ := isPiece_of_kindAt? padding (by decide)
    obtain ⟨front, c, whole⟩ := (List.eq_nil_or_concat token.text).resolve_left
      (text_ne_nil_of_mem_scan (List.mem_of_getElem? found))
    rw [List.concat_eq_append] at whole
    have pad := cut.text_of_padding kind c (by rw [whole]; simp)
    exact absurd (endsLine_of_lineBreak broken) (not_endsLine_of_getElem? trimmed found whole pad)
  · rw [← same] at ends
    exact ends

end Tiles

end Token

namespace Layout

variable {text : Text} {omitted : List Span}

/-! ## Leaving out whole lines -/

/-- Where no line ends in the source, none ends in what remains of it. -/
theorem isLineEnd_gap {place : Nat}
    (goesOn : ¬ Text.EndsLine (Token.textOf ((scan text).drop place)))
    (clear : omitted.any (·.contains place) = false) :
    Cleanup.isLineEnd (gap (scan text) omitted place (scan text).length) = false := by
  rcases Nat.lt_or_ge place (scan text).length with within | beyond
  · have found := List.getElem?_eq_getElem within
    have proper := text_ne_nil_of_mem_scan (List.mem_of_getElem? found)
    rw [List.drop_eq_getElem_cons within, textOf_cons] at goesOn
    rw [gap_step _ _ within, clear, textAt_of_getElem? found, if_neg Bool.false_ne_true,
      Text.isLineEnd_append _ proper, ← Text.isLineEnd_append _ proper]
    exact Text.isLineEnd_eq_false goesOn
  · rw [List.drop_eq_nil_of_le beyond] at goesOn
    exact absurd (Or.inl rfl) goesOn

/-- Spans that each begin at a line break or right behind an opening marker. -/
def BeginLines (tokens : List Token) (omitted : List Span) : Prop :=
  ∀ other ∈ omitted, kindAt? tokens other.start = some .lineBreak ∨
    ∃ opening, kindAt? tokens opening = some .opening ∧ other.start = opening + 1

/-- Nothing that is left out begins behind a token that ends in padding and stays. -/
theorem clear_of_padding (trimmed : text.NoTrailingPadding)
    (begins : BeginLines (scan text) omitted)
    {place : Nat} {token : Token} {front : Text} {c : Char}
    (found : (scan text)[place]? = some token) (whole : token.text = front ++ [c])
    (padding : isPadding c = true) (clear : omitted.any (·.contains place) = false) :
    omitted.any (·.contains (place + 1)) = false := by
  have goesOn := not_endsLine_of_getElem? trimmed found whole padding
  rw [List.any_eq_false] at clear ⊢
  intro other mem holds
  obtain ⟨low, high⟩ := Span.contains_iff.mp holds
  have start : other.start = place + 1 := by
    by_contra before
    exact clear other mem (Span.contains_iff.mpr (by omega))
  rcases begins other mem with broken | ⟨opening, opens, behind⟩
  · rw [start] at broken
    exact goesOn (endsLine_of_lineBreak broken)
  · rw [show opening = place by omega] at opens
    obtain ⟨marker, same, kind, cut⟩ := isPiece_of_kindAt? opens (by decide)
    rw [found] at same
    cases same
    rw [cut.text_of_opening kind] at whole
    have star := congrArg List.getLast? whole
    rw [List.getLast?_concat] at star
    cases star
    cases padding

/-- Leaving out spans that begin at line breaks leaves no padding at the end of a line. -/
theorem tidy_gap (trimmed : text.NoTrailingPadding) (begins : BeginLines (scan text) omitted)
    {place : Nat} (within : place ≤ (scan text).length) :
    (gap (scan text) omitted place (scan text).length).Tidy := by
  induction left : (scan text).length - place generalizing place with
  | zero =>
      have last : place = (scan text).length := by omega
      rw [last, gap_self]
      exact Text.Tidy.nil
  | succ left ih =>
      have inside : place < (scan text).length := by omega
      have later : (gap (scan text) omitted (place + 1) (scan text).length).Tidy :=
        ih inside (by omega)
      have found := List.getElem?_eq_getElem inside
      rw [gap_step _ _ inside, textAt_of_getElem? found]
      cases covered : omitted.any (·.contains place) with
      | true => exact later
      | false =>
          rw [if_neg Bool.false_ne_true]
          refine Text.Tidy.append (fun front c back whole padding more => ?_)
            (fun front c whole padding => ?_) later
          · rw [← Text.isLineEnd_append _ more]
            exact Text.isLineEnd_eq_false (not_endsLine_of_getElem? trimmed found whole padding)
          · exact isLineEnd_gap (not_endsLine_of_getElem? trimmed found whole padding)
              (clear_of_padding trimmed begins found whole padding covered)

end Layout

end DocComment
