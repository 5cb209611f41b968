import DocComment.Proofs.Text.Trim
import DocComment.Rendering.Cleanup

/-!
# Texts without a closing marker

A closing marker lies in one of two joined texts or arises where they meet
(`unclosed_append_iff`).  Texts that neither begin nor end with a half of it
can be joined freely (`Sealed`).
-/

namespace DocComment

namespace Text

variable {first second text : Text}

/-- No closing marker occurs in the text. -/
def Unclosed (text : Text) : Prop :=
  ¬ Cleanup.closer <:+: text

/-- Whether a closing marker arises where two texts meet. -/
def MeetInCloser (first second : Text) : Prop :=
  first.getLast? = some '*' ∧ second.head? = some '/'

instance (first second : Text) : Decidable (MeetInCloser first second) :=
  inferInstanceAs (Decidable (_ ∧ _))

theorem Unclosed.of_isInfix (unclosed : second.Unclosed) (inside : first <:+: second) :
    first.Unclosed :=
  fun closes => unclosed (closes.trans inside)

theorem unclosed_nil : Unclosed [] := by
  rw [Unclosed, Cleanup.closer, List.infix_nil]
  exact List.cons_ne_nil _ _

/-- A text without stars has no closing marker. -/
theorem unclosed_of_ne_star (none : ∀ c ∈ text, c ≠ '*') : text.Unclosed :=
  fun closes => none '*' (closes.subset List.mem_cons_self) rfl

theorem unclosed_append_iff :
    Unclosed (first ++ second) ↔
      first.Unclosed ∧ second.Unclosed ∧ ¬ MeetInCloser first second := by
  induction first with
  | nil => simp [unclosed_nil, MeetInCloser]
  | cons c first ih =>
      rw [Unclosed, Unclosed, List.cons_append, List.infix_cons_iff, List.infix_cons_iff,
        not_or, not_or]
      change _ ∧ Unclosed (first ++ second) ↔ _
      rw [ih]
      cases first with
      | nil =>
          have starts : Cleanup.closer <+: c :: ([] ++ second) ↔ MeetInCloser [c] second := by
            cases second with
            | nil => simp [MeetInCloser, Cleanup.closer]
            | cons d second => simp [MeetInCloser, Cleanup.closer, List.cons_prefix_cons, eq_comm]
          have short : Unclosed [c] := fun found => by
            have length := found.length_le
            simp [Cleanup.closer] at length
          rw [Unclosed, List.infix_cons_iff, not_or] at short
          have apart : ¬ MeetInCloser [] second := by simp [MeetInCloser]
          rw [starts]
          tauto
      | cons d first =>
          have starts : Cleanup.closer <+: c :: (d :: first ++ second) ↔
              Cleanup.closer <+: c :: d :: first := by
            simp [Cleanup.closer, List.cons_prefix_cons]
          rw [starts]
          simp only [MeetInCloser, List.getLast?_cons_cons, and_assoc, Unclosed]

theorem Unclosed.append (one : first.Unclosed) (other : second.Unclosed)
    (apart : ¬ MeetInCloser first second) : Unclosed (first ++ second) :=
  unclosed_append_iff.mpr ⟨one, other, apart⟩

theorem Unclosed.cons {c : Char} (unclosed : text.Unclosed) (other : c ≠ '*') :
    Unclosed (c :: text) := by
  refine @Unclosed.append [c] text (unclosed_of_ne_star ?_) unclosed ?_
  · simpa using other
  · rintro ⟨last, _⟩
    exact other (Option.some.inj last)

/-- Every closing marker behind a text without one begins behind it. -/
theorem Unclosed.length_le {before behind : Text} (unclosed : first.Unclosed)
    (apart : ¬ MeetInCloser first second)
    (split : first ++ second = before ++ (Cleanup.closer ++ behind)) :
    first.length ≤ before.length := by
  rcases List.append_eq_append_iff.mp split with ⟨more, rfl, _⟩ | ⟨more, rfl, rest⟩
  · rw [List.length_append]
    exact Nat.le_add_right _ _
  · cases more with
    | nil => rw [List.append_nil]
    | cons c more =>
        obtain ⟨rfl, later⟩ := List.cons.inj rest
        cases more with
        | nil =>
            have head : second.head? = some '/' := congrArg List.head? later.symm
            exact absurd ⟨List.getLast?_concat, head⟩ apart
        | cons d more =>
            obtain ⟨rfl, _⟩ := List.cons.inj later
            exact absurd ⟨before, more, by rw [List.append_assoc]; rfl⟩ unclosed

/-! ## Parts of a text -/

theorem trim_isInfix (text : Text) : trim text <:+: text :=
  (trimEnd_isPrefix _).isInfix.trans (List.dropWhile_suffix _).isInfix

theorem dropSpace_suffix (text : Text) : dropSpace text <:+ text := by
  unfold dropSpace
  split
  next rest => exact List.suffix_cons ' ' rest
  next => exact List.suffix_refl _

/-- The first part of a text begins it, and every other part lies inside. -/
theorem exists_splitWhere (p : Char → Bool) (text : Text) :
    ∃ part parts, splitWhere p text = part :: parts ∧ part <+: text ∧
      ∀ other ∈ parts, other <:+: text := by
  induction text with
  | nil => exact ⟨[], [], rfl, List.prefix_refl _, by simp⟩
  | cons c rest ih =>
      obtain ⟨part, parts, split, front, inside⟩ := ih
      have within : ∀ other ∈ parts, other <:+: c :: rest := fun other mem =>
        (inside other mem).trans (List.suffix_cons c rest).isInfix
      rw [splitWhere, split]
      split
      next =>
        refine ⟨[], part :: parts, rfl, List.nil_prefix, List.forall_mem_cons.mpr ⟨?_, within⟩⟩
        exact front.isInfix.trans (List.suffix_cons c rest).isInfix
      next => exact ⟨c :: part, parts, rfl, List.cons_prefix_cons.mpr ⟨rfl, front⟩, within⟩

/-- What stands in front of the first separator belongs to the first part. -/
theorem splitWhere_append {p : Char → Bool} {front : Text} (inside : ∀ c ∈ front, p c = false)
    (rest : Text) : ∃ first others, splitWhere p rest = first :: others ∧
      splitWhere p (front ++ rest) = (front ++ first) :: others := by
  obtain ⟨first, others, split, _⟩ := exists_splitWhere p rest
  refine ⟨first, others, split, ?_⟩
  induction front with
  | nil => exact split
  | cons c front ih =>
      obtain ⟨here, later⟩ := List.forall_mem_cons.mp inside
      rw [List.cons_append, splitWhere, here, ih later]
      rfl

theorem infix_of_mem_splitWhere {p : Char → Bool} {part : Text} (mem : part ∈ splitWhere p text) :
    part <:+: text := by
  obtain ⟨first, parts, split, front, inside⟩ := exists_splitWhere p text
  rw [split] at mem
  rcases List.mem_cons.mp mem with rfl | mem
  · exact front.isInfix
  · exact inside part mem

theorem infix_of_mem_words {word : Text} (mem : word ∈ words text) : word <:+: text :=
  infix_of_mem_splitWhere (List.mem_of_mem_filter mem)

theorem join_cons_cons (separator first second : Text) (rest : List Text) :
    join separator (first :: second :: rest) =
      first ++ separator ++ join separator (second :: rest) :=
  rfl

/-- A joined list is its first text and each other one with the separator in front. -/
theorem join_cons (separator first : Text) (rest : List Text) :
    join separator (first :: rest) = first ++ rest.flatMap fun text => separator ++ text := by
  induction rest generalizing first with
  | nil => rw [join, List.flatMap_nil, List.append_nil]
  | cons second rest ih =>
    rw [join_cons_cons, ih, List.flatMap_cons, List.append_assoc, List.append_assoc]

/-- Joining with a character that belongs to no closing marker makes none. -/
theorem unclosed_join {c : Char} (star : c ≠ '*') (slash : c ≠ '/') {texts : List Text}
    (unclosed : ∀ text ∈ texts, text.Unclosed) : Unclosed (join [c] texts) := by
  induction texts with
  | nil => exact unclosed_nil
  | cons text texts ih =>
      obtain ⟨here, later⟩ := List.forall_mem_cons.mp unclosed
      cases texts with
      | nil => exact here
      | cons next texts =>
          rw [join_cons_cons, List.append_assoc]
          refine here.append ((ih later).cons star) ?_
          rintro ⟨_, head⟩
          exact slash (Option.some.inj head)

/-! ## Sealed texts -/

/-- A text with no closing marker in it nor half of one at either end. -/
structure Sealed (text : Text) : Prop where
  unclosed : text.Unclosed
  head : text.head? ≠ some '/'
  last : text.getLast? ≠ some '*'

theorem sealed_nil : Sealed [] :=
  ⟨unclosed_nil, by decide, by decide⟩

theorem Sealed.append (one : first.Sealed) (other : second.Sealed) : Sealed (first ++ second) := by
  refine ⟨one.unclosed.append other.unclosed fun meet => one.last meet.1, ?_, ?_⟩
  · cases first with
    | nil => exact other.head
    | cons => exact one.head
  · rcases List.eq_nil_or_concat second with rfl | ⟨front, c, rfl⟩
    · rw [List.append_nil]
      exact one.last
    · have last := other.last
      rw [List.concat_eq_append, List.getLast?_concat] at last
      rwa [List.concat_eq_append, ← List.append_assoc, List.getLast?_concat]

/-- A text without stars and slashes is sealed. -/
theorem sealed_of_ne (none : ∀ c ∈ text, c ≠ '*' ∧ c ≠ '/') : Sealed text :=
  ⟨unclosed_of_ne_star fun c mem => (none c mem).1,
    fun head => (none '/' (List.mem_of_head? head)).2 rfl,
    fun last => (none '*' (List.mem_of_getLast? last)).1 rfl⟩

theorem sealed_join {separator : Text} (separates : separator.Sealed) {texts : List Text}
    (all : ∀ text ∈ texts, text.Sealed) : Sealed (join separator texts) := by
  induction texts with
  | nil => exact sealed_nil
  | cons text texts ih =>
      obtain ⟨here, later⟩ := List.forall_mem_cons.mp all
      cases texts with
      | nil => exact here
      | cons next texts => exact (here.append separates).append (ih later)

end Text

end DocComment
