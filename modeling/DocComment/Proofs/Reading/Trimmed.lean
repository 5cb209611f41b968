import DocComment.Proofs.Reading.TagTexts
import DocComment.Proofs.Rendering.Callable
import DocComment.Proofs.Rendering.Starred

/-!
# Comments without padding at the ends of lines

Cleaning up drops padding behind stars at the ends of lines (`trimmed_starPadding`).
This leaves the tags of a text as they are (`Trimmed.tagsAlike`), and it brings no word
that is cleaned up next to its parenthesis (`Trimmed.not_hasPaddedCallable`).
-/

namespace DocComment

open Token Cleanup

/-- Padding is gone from the ends of some lines, behind last characters of a class. -/
inductive Trimmed (firm : Option Char → Prop) : Text → Text → Prop
  | last {front padding : Text} (unbroken : '\n' ∉ front) (pads : ∀ c ∈ padding, isPadding c = true)
      (ends : padding = [] ∨ firm front.getLast?) : Trimmed firm (front ++ padding) front
  | line {front padding rest rest' : Text} (unbroken : '\n' ∉ front) (pads : ∀ c ∈ padding, isPadding c = true)
      (ends : padding = [] ∨ firm front.getLast?) (later : Trimmed firm rest rest') :
      Trimmed firm (front ++ (padding ++ '\n' :: rest)) (front ++ '\n' :: rest')

namespace Trimmed

variable {firm : Option Char → Prop} {text text' : Text}

theorem mono {weaker : Option Char → Prop} (all : ∀ last, firm last → weaker last)
    (trimmed : Trimmed firm text text') :
    Trimmed weaker text text' := by
  induction trimmed with
  | last unbroken pads ends => exact .last unbroken pads (ends.imp_right (all _))
  | line unbroken pads ends later ih => exact .line unbroken pads (ends.imp_right (all _)) ih

/-! ## Stars -/

/-- A text without padding behind stars ends as before, or with a star. -/
theorem getLast? (trimmed : Trimmed (· = some '*') text text') :
    text'.getLast? = text.getLast? ∨ text'.getLast? = some '*' := by
  have behind {front rest : Text} :
      (front ++ '\n' :: rest).getLast? = some (rest.getLast?.getD '\n') := by
    rw [List.getLast?_append, List.getLast?_cons]
    rfl
  induction trimmed with
  | last unbroken pads ends =>
      rcases ends with rfl | star
      · exact .inl (by rw [List.append_nil])
      · exact .inr star
  | line unbroken pads ends later ih =>
      rw [← List.append_assoc, behind, behind]
      rcases ih with same | star
      · exact .inl (by rw [same])
      · exact .inr (by rw [star]; rfl)

theorem cons (c : Char) (trimmed : Trimmed (· = some '*') text text') :
    Trimmed (· = some '*') (c :: text) (c :: text') := by
  by_cases broken : c = '\n'
  · rw [broken]
    exact @line _ [] [] _ _ List.not_mem_nil (List.forall_mem_nil _) (.inl rfl) trimmed
  have longer {front padding : Text} (ends : padding = [] ∨ front.getLast? = some '*') :
      padding = [] ∨ (c :: front).getLast? = some '*' := ends.imp_right fun last => by
    rw [List.getLast?_cons, last]
    rfl
  have unbroken {front : Text} (unbroken : '\n' ∉ front) : '\n' ∉ c :: front :=
    fun mem => (List.mem_cons.mp mem).elim (Ne.symm broken) unbroken
  cases trimmed with
  | last inside pads ends => exact .last (unbroken inside) pads (longer ends)
  | line inside pads ends later => exact .line (unbroken inside) pads (longer ends) later

theorem star {padding : Text} (pads : ∀ c ∈ padding, isPadding c = true)
    (ends : isLineEnd text = true) (trimmed : Trimmed (· = some '*') text text') :
    Trimmed (· = some '*') ('*' :: (padding ++ text)) ('*' :: text') := by
  have unbroken : '\n' ∉ ['*'] := by decide
  -- Nothing but padding stands in front of the end of the line.
  have bare {c : Char} {front : Text} {more : Text} (inside : '\n' ∉ c :: front)
      (ends : isLineEnd (c :: more) = true) :
      False := by
    cases show c = '\n' from beq_iff_eq.mp ends
    exact inside List.mem_cons_self
  cases trimmed with
  | @last _ padding' inside pads' ends' =>
      cases text' with
      | nil => exact .last unbroken (List.forall_mem_append.mpr ⟨pads, pads'⟩) (.inr rfl)
      | cons c front => exact (bare inside ends).elim
  | @line front padding' rest rest' inside pads' ends' later =>
      cases front with
      | nil =>
          have whole : Trimmed (· = some '*') (['*'] ++ ((padding ++ padding') ++ '\n' :: rest))
              (['*'] ++ '\n' :: rest') :=
            .line unbroken (List.forall_mem_append.mpr ⟨pads, pads'⟩) (.inr rfl) later
          rwa [List.append_assoc] at whole
      | cons c front => exact (bare inside ends).elim

end Trimmed

/-- Padding is dropped behind stars at the ends of lines. -/
theorem trimmed_starPadding (text : Text) :
    Trimmed (· = some '*') text (Text.substituteAll starPadding text) := by
  induction text using starInduction with
  | nil => exact .last List.not_mem_nil (List.forall_mem_nil _) (.inl rfl)
  | keep c rest apart ih =>
      rw [Text.substituteAll_cons_of_none apart]
      exact .cons c ih
  | drop c padding back found pads ends ih =>
      rw [substituteAll_starPadding_drop found]
      exact .cons c (.star pads ends ih)

namespace Trimmed

variable {firm : Option Char → Prop} {text text' : Text}

/-! ## Decoration -/

/-- Behind their decorations the lines are the same but for padding at their ends. -/
theorem bare (trimmed : Trimmed (· ≠ some '\r') text text') :
    Trimmed (· ≠ some '\r') (text.drop (decorationLength text))
      (text'.drop (decorationLength text')) := by
  have soft {front : Text} (pads : ∀ c ∈ front, isPadding c = true) :
      decorationLength front = front.length := by
    rw [← List.append_nil front, decorationLength_append_of_padding pads, List.append_nil]
    rfl
  have feed (rest : Text) : decorationLength ('\n' :: rest) = 0 := rfl
  have unbroken {front : Text} {count : Nat} (inside : '\n' ∉ front) : '\n' ∉ front.drop count :=
    fun mem => inside (List.mem_of_mem_drop mem)
  have ends' {front padding : Text} {count : Nat}
      (ends : padding = [] ∨ front.getLast? ≠ some '\r') :
      padding = [] ∨ (front.drop count).getLast? ≠ some '\r' :=
    ends.imp_right fun firm last => firm (Text.getLast?_of_suffix (List.drop_suffix _ _) last)
  cases trimmed with
  | @last _ padding inside pads ends =>
      by_cases blank : ∀ c ∈ text', isPadding c = true
      · rw [soft (List.forall_mem_append.mpr ⟨blank, pads⟩), soft blank, List.drop_length,
          List.drop_length]
        exact .last List.not_mem_nil (List.forall_mem_nil _) (.inl rfl)
      · have same : decorationLength (text' ++ padding) = decorationLength text' :=
          decorationLength_append (fun slash => by cases pads _ (List.mem_of_head? slash))
            fun all => absurd all blank
        rw [same, List.drop_append_of_le_length (decorationLength_le _)]
        exact .last (unbroken inside) pads (ends' ends)
  | @line front padding rest rest' inside pads ends later =>
      by_cases blank : ∀ c ∈ front, isPadding c = true
      · rw [decorationLength_append_of_padding blank, decorationLength_append_of_padding blank,
          decorationLength_append_of_padding pads, feed, feed, ← List.append_assoc, Nat.add_zero,
          ← List.length_append,
          List.drop_left, Nat.add_zero, List.drop_left]
        exact @line _ [] [] _ _ List.not_mem_nil (List.forall_mem_nil _) (.inl rfl) later
      · have same {rest : Text} (slash : rest.head? ≠ some '/') :
            decorationLength (front ++ rest) = decorationLength front :=
          decorationLength_append slash fun all => absurd all blank
        have slash : (padding ++ '\n' :: rest).head? ≠ some '/' := by
          cases padding with
          | nil => simp
          | cons c padding => exact fun slash => by cases slash; cases pads _ List.mem_cons_self
        rw [same slash, same (by simp), List.drop_append_of_le_length (decorationLength_le _),
          List.drop_append_of_le_length (decorationLength_le _)]
        exact .line (unbroken inside) pads (ends' ends) later

/-! ## Tags -/

variable {dialect : Dialect}

/-- Where a line ends, its tokens and the line feed part. -/
theorem exists_cut {front : Text} (inside : '\n' ∉ front) (rest : Text) :
    ∃ line carriage tokens, front = line ++ carriage ∧ IsFeed (carriage ++ ['\n']) ∧
      textOf tokens = line ∧
      scan (line ++ ((carriage ++ ['\n']) ++ rest)) =
        tokens ++ scan ((carriage ++ ['\n']) ++ rest) := by
  obtain ⟨before, token, after, whole, inner, outer, written, rfl⟩ :=
    exists_split_of_textOf (textOf_scan (front ++ '\n' :: rest))
  have kind : token.kind = .lineBreak := by
    by_contra other
    refine unbroken_of_mem_scan (whole ▸ List.mem_append_right _ List.mem_cons_self) other ?_
    rw [written]
    exact List.mem_append_right _ List.mem_cons_self
  have behind : textOf (token :: after) = inner ++ '\n' :: rest := by
    have covers := textOf_scan (textOf before ++ inner ++ '\n' :: rest)
    rw [whole, textOf_append, List.append_assoc] at covers
    exact List.append_cancel_left covers
  have resumed : scan (inner ++ '\n' :: rest) = token :: after := by
    have dropped := scan_textOf_drop (textOf before ++ inner ++ '\n' :: rest) before.length
    rwa [whole, List.drop_left, behind] at dropped
  have bare : '\n' ∉ inner := fun mem => inside (List.mem_append_right _ mem)
  obtain ⟨broken, more, split, isFeed⟩ :=
    @exists_of_lineBreak (inner ++ '\n' :: rest) (by rw [firstKind?, resumed, ← kind]; rfl)
  have same : IsFeed (inner ++ ['\n']) := by
    rcases isFeed with rfl | rfl
    · cases inner with
      | nil => exact .inl rfl
      | cons c inner =>
          obtain ⟨rfl, -⟩ := List.cons.inj split
          exact absurd List.mem_cons_self bare
    · cases inner with
      | nil => cases split
      | cons c inner =>
          obtain ⟨rfl, further⟩ := List.cons.inj split
          cases inner with
          | nil => exact .inr rfl
          | cons d inner =>
              obtain ⟨rfl, -⟩ := List.cons.inj further
              exact absurd (List.mem_cons_of_mem _ List.mem_cons_self) bare
  have joined : inner ++ ['\n'] ++ rest = inner ++ '\n' :: rest := by rw [List.append_assoc]; rfl
  refine ⟨textOf before, inner, before, rfl, same, rfl, ?_⟩
  rw [joined, ← List.append_assoc, whole, resumed]

/-- The first line does not depend on those behind it. -/
theorem tagsAlike_line {front rest rest' : Text} (inside : '\n' ∉ front)
    (later : dialect.TagsAlike (rest.drop (decorationLength rest))
      (rest'.drop (decorationLength rest'))) :
    dialect.TagsAlike (front ++ '\n' :: rest) (front ++ '\n' :: rest') := by
  obtain ⟨line, carriage, tokens, rfl, isFeed, covers, cut⟩ := exists_cut inside rest
  have head : ∀ rest : Text, (carriage ++ ['\n'] ++ rest).head? = some '\n' ∨
      (carriage ++ ['\n'] ++ rest).head? = some '\r' := by
    rcases isFeed with feed | feed <;> rw [feed] <;> intro rest
    · exact .inl rfl
    · exact .inr rfl
  have parted (rest : Text) : (carriage ++ ['\n'] ++ rest).Parted :=
    @parted_padded_feed [] _ (List.forall_mem_nil _) isFeed rest
  have heads : (carriage ++ ['\n'] ++ rest').head? = (carriage ++ ['\n'] ++ rest).head? := by
    rcases isFeed with feed | feed <;> rw [feed] <;> rfl
  have seam : Seam line tokens (carriage ++ ['\n'] ++ rest) (carriage ++ ['\n'] ++ rest') :=
    { parted := parted rest'
      known := by rw [firstKind?_feed isFeed]; decide
      padding := fun c first soft => by
        rcases head rest' with feed | feed <;> rw [feed] at first <;> cases first <;> cases soft
      star := fun star => by
        rcases head rest' with feed | feed <;> rw [feed] at star <;> cases star
      carriage := fun feed => .inl (heads ▸ feed)
      quote := fun ends => by
        rcases ends with empty | feed
        · rcases head rest with first | first <;> rw [empty] at first <;> cases first
        · exact .inl (.inr (heads.trans feed)) }
  have cut' := scan_append_of_seam cut covers (parted rest) seam
  obtain ⟨taken, broken⟩ := scan_feed_append isFeed rest
  obtain ⟨taken', broken'⟩ := scan_feed_append isFeed rest'
  rw [broken] at cut
  rw [broken'] at cut'
  have same := Dialect.tagsAlike_of_sameButLast cut cut'
    ⟨tokens, [], [], (List.append_nil _).symm, (List.append_nil _).symm,
      .padding (List.forall_mem_nil _) (List.forall_mem_nil _)⟩ later
  simpa only [List.append_assoc, List.cons_append, List.nil_append] using same

/-- Padding that is gone from the ends of lines leaves the tags as they are. -/
theorem tagsAlike (trimmed : Trimmed (· ≠ some '\r') text text') {final final' : Text}
    (later : dialect.TagsAlike (final.drop (decorationLength final))
      (final'.drop (decorationLength final'))) :
    dialect.TagsAlike (text ++ '\n' :: final) (text' ++ '\n' :: final') := by
  -- One line, behind which the others have the same tags.
  have line {front padding rest rest' : Text} (inside : '\n' ∉ front)
      (pads : ∀ c ∈ padding, isPadding c = true)
      (ends : padding = [] ∨ front.getLast? ≠ some '\r')
      (later : dialect.TagsAlike (rest.drop (decorationLength rest))
        (rest'.drop (decorationLength rest'))) :
      dialect.TagsAlike (front ++ (padding ++ '\n' :: rest)) (front ++ '\n' :: rest') := by
    rcases ends with rfl | firm
    · exact tagsAlike_line inside later
    · have same :=
        @Dialect.tagsAlike_of_cut dialect _ front padding ['\n'] ['\n'] rest' rest (.inl rfl)
          (.inl rfl) pads
        (scan_append_of_ends (seam_feed firm rest')) (textOf_scan front) (fun _ => rfl) fun depth =>
        (later depth).symm
      exact fun depth => (same depth).symm
  have broken (rest final : Text) :
      (rest ++ '\n' :: final).drop (decorationLength (rest ++ '\n' :: final)) =
      rest.drop (decorationLength rest) ++ '\n' :: final := by
    rw [decorationLength_append (by simp) fun _ => rfl,
      List.drop_append_of_le_length (decorationLength_le rest)]
  induction known : text.length using Nat.strong_induction_on generalizing text text' with
  | _ length ih =>
    cases trimmed with
    | @last _ padding inside pads ends =>
        rw [List.append_assoc]
        exact line inside pads ends later
    | @line front padding rest rest' inside pads ends inner =>
        have shorter : (rest.drop (decorationLength rest)).length < length := by
          rw [← known, List.length_drop, List.length_append, List.length_append, List.length_cons]
          omega
        have behind := ih _ shorter inner.bare rfl
        rw [← broken, ← broken] at behind
        simpa only [List.append_assoc, List.cons_append] using line inside pads ends behind

/-- Without padding at the ends of lines no word comes to stand next to a parenthesis. -/
theorem not_hasPaddedCallable (trimmed : Trimmed firm text text')
    (clean : ¬ HasPaddedCallable text) :
    ¬ HasPaddedCallable text' := by
  induction trimmed with
  | last => exact fun padded => clean (padded.of_isInfix (List.prefix_append _ _).isInfix)
  | @line front padding rest rest' unbroken pads ends later ih =>
      have front? : ¬ HasPaddedCallable front := fun padded =>
        clean (padded.of_isInfix (List.prefix_append _ _).isInfix)
      have rest? : ¬ HasPaddedCallable rest := fun padded => clean (padded.of_isInfix
        (((List.suffix_cons '\n' rest).trans (List.suffix_append padding _)).trans (List.suffix_append front _)).isInfix)
      have feed : ¬ HasPaddedCallable ('\n' :: rest') :=
        @not_hasPaddedCallable_front ['\n'] rest' (by decide) (ih rest?)
      refine not_hasPaddedCallable_append ?_ front? feed
      rintro c ⟨⟩
      decide

end Trimmed

end DocComment
