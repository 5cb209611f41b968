import DocComment.Proofs.Text.Search
import DocComment.Rendering.Cleanup

/-!
# Padding behind the word that opens a callable

The rule takes the padding between that word and its parenthesis away wherever
it stands.  No such padding is left (`not_hasPaddedCallable`), a text without any is not changed
(`tightened_eq_self`), and a character that belongs to no match divides a text into parts
that are treated apart (`tightened_append_of_last`).
-/

namespace DocComment

namespace Cleanup

/-- Whether the word that opens a callable occurs with padding in front of its parenthesis. -/
def HasPaddedCallable (text : Text) : Prop :=
  ∃ front padding back : Text, text = front ++ (callableWord ++ (padding ++ '(' :: back)) ∧
    padding ≠ [] ∧ ∀ c ∈ padding, isPadding c = true

/-- The text without the padding in front of the parentheses of callables. -/
def tightened (text : Text) : Text :=
  Text.substituteAll callablePadding text

/-- A character that stands in no match of the rule. -/
def divides (c : Char) : Bool :=
  !(callableWord.contains c || isPadding c || c == '(')

theorem HasPaddedCallable.of_isInfix {text part : Text} (padded : HasPaddedCallable part)
    (occurs : part <:+: text) : HasPaddedCallable text := by
  obtain ⟨front, padding, back, rfl, proper, all⟩ := padded
  obtain ⟨before, behind, rfl⟩ := occurs
  exact ⟨before ++ front, padding, back ++ behind, by simp, proper, all⟩

theorem not_hasPaddedCallable_of_not_mem {text : Text} (absent : 'c' ∉ text) :
    ¬ HasPaddedCallable text := by
  rintro ⟨front, padding, back, rfl, -⟩
  exact absent (by simp [callableWord])

/-! ## Matches of the rule -/

theorem takeWhile_padding_append {padding : Text} (back : Text)
    (all : ∀ c ∈ padding, isPadding c = true) :
    (padding ++ '(' :: back).takeWhile isPadding = padding ∧
      (padding ++ '(' :: back).dropWhile isPadding = '(' :: back := by
  constructor
  · rw [List.takeWhile_append_of_pos all, List.takeWhile_cons_of_neg (by decide), List.append_nil]
  · rw [List.dropWhile_append_of_pos all, List.dropWhile_cons_of_neg (by decide)]

theorem callablePadding_eq_some_iff {text : Text} {result : Nat × Text} :
    callablePadding text = some result ↔ ∃ padding back : Text,
      text = callableWord ++ (padding ++ '(' :: back) ∧ padding ≠ [] ∧
        (∀ c ∈ padding, isPadding c = true) ∧
          result = (callableWord.length + padding.length + 1, callableWord ++ ['(']) := by
  constructor
  · intro found
    obtain ⟨rest, opened, found⟩ := Option.bind_eq_some_iff.mp found
    dsimp only at found
    split at found
    next back bracket =>
      split at found
      next => cases found
      next proper =>
        cases found
        refine ⟨rest.takeWhile isPadding, back, ?_, by simpa using proper, fun c mem => ?_, rfl⟩
        · rw [← bracket, List.takeWhile_append_dropWhile]
          exact Text.after?_eq_some_iff.mp opened
        · exact List.all_eq_true.mp List.all_takeWhile c mem
    next => cases found
  · rintro ⟨padding, back, rfl, proper, all, rfl⟩
    have parts := takeWhile_padding_append back all
    rw [callablePadding, Text.after?_append, Option.bind_some]
    dsimp only
    rw [parts.1, parts.2]
    exact if_neg (by simpa using proper)

theorem callablePadding_eq_none_of_head {c : Char} {rest : Text} (other : c ≠ 'c') :
    callablePadding (c :: rest) = none := by
  cases found : callablePadding (c :: rest) with
  | none => rfl
  | some result =>
      obtain ⟨padding, back, split, _⟩ := callablePadding_eq_some_iff.mp found
      exact absurd (List.cons.inj split).1 other

theorem callablePadding_le_length {text replacement : Text} {taken : Nat}
    (found : callablePadding text = some (taken, replacement)) : taken ≤ text.length := by
  obtain ⟨padding, back, rfl, _, _, same⟩ := callablePadding_eq_some_iff.mp found
  cases same
  simp only [List.length_append, List.length_cons]
  omega

/-- A match that begins in front of a dividing character ends in front of it. -/
theorem callablePadding_append {part : Text} {c : Char} (rest : Text) (divide : divides c = true) :
    callablePadding (part ++ c :: rest) = callablePadding part := by
  have outside {padding : Text} (all : ∀ d ∈ padding, isPadding d = true) :
      c ∉ callableWord ++ (padding ++ ['(']) := by
    intro mem
    simp only [divides, Bool.not_eq_true', Bool.or_eq_false_iff, List.contains_eq_mem,
      decide_eq_false_iff_not, beq_eq_false_iff_ne] at divide
    rcases List.mem_append.mp mem with word | mem
    · exact divide.1.1 word
    · rcases List.mem_append.mp mem with pad | bracket
      · rw [all c pad] at divide
        exact Bool.noConfusion divide.1.2
      · exact divide.2 (List.mem_singleton.mp bracket)
  have regroup (padding back : Text) : callableWord ++ (padding ++ '(' :: back) =
      (callableWord ++ (padding ++ ['('])) ++ back := by simp
  ext result
  rw [callablePadding_eq_some_iff, callablePadding_eq_some_iff]
  constructor
  · rintro ⟨padding, back, split, proper, all, same⟩
    rw [regroup] at split
    rcases List.append_eq_append_iff.mp split with ⟨more, longer, behind⟩ | ⟨more, whole, _⟩
    · cases more with
      | nil =>
          rw [List.append_nil] at longer
          exact ⟨padding, [], longer.symm, proper, all, same⟩
      | cons d more =>
          -- The match would hold the dividing character.
          have equal : c = d := (List.cons.inj behind).1
          refine absurd ?_ (outside all)
          rw [longer, equal]
          exact List.mem_append_right _ List.mem_cons_self
    · exact ⟨padding, more, by rw [whole]; simp, proper, all, same⟩
  · rintro ⟨padding, back, rfl, proper, all, same⟩
    exact ⟨padding, back ++ c :: rest, by simp, proper, all, same⟩

/-! ## Dividing a text -/

theorem tightened_append_of_head {first second : Text}
    (head : ∀ c, second.head? = some c → divides c = true) :
    tightened (first ++ second) = tightened first ++ tightened second := by
  cases second with
  | nil => simp [tightened, Text.substituteAll, Text.substituteFrom]
  | cons c rest =>
      refine Text.substituteAll_append (fun _ _ _ found => callablePadding_le_length found) ?_
      exact fun part _ _ => callablePadding_append rest (head c rfl)

theorem tightened_append_of_last {first second : Text} {c : Char} (divide : divides c = true) :
    tightened (first ++ c :: second) = tightened first ++ c :: tightened second := by
  have single : tightened (c :: second) = c :: tightened second := by
    refine Text.substituteAll_cons_of_none (callablePadding_eq_none_of_head ?_)
    rintro rfl
    cases divide
  rw [tightened_append_of_head fun d same => ?_, single]
  cases same
  exact divide

theorem mem_tightened {text : Text} {c : Char} (divide : divides c = true) (mem : c ∈ text) :
    c ∈ tightened text := by
  obtain ⟨front, back, rfl⟩ := List.append_of_mem mem
  rw [tightened_append_of_last divide]
  exact List.mem_append_right _ List.mem_cons_self

/-- What begins with no character of the word is passed over. -/
theorem tightened_append_of_front {front text : Text} (without : ∀ c ∈ front, c ≠ 'c') :
    tightened (front ++ text) = front ++ tightened text := by
  induction front with
  | nil => rfl
  | cons c front ih =>
      have none : callablePadding (c :: (front ++ text)) = none :=
        callablePadding_eq_none_of_head (without c List.mem_cons_self)
      rw [List.cons_append, tightened, Text.substituteAll_cons_of_none none, ← tightened,
        ih fun d mem => without d (List.mem_cons_of_mem _ mem)]
      rfl

theorem tightened_eq_self {text : Text} (clean : ¬ HasPaddedCallable text) :
    tightened text = text := by
  refine Text.substituteAll_eq_self fun part ends => ?_
  cases found : callablePadding part with
  | none => rfl
  | some result =>
      obtain ⟨padding, back, rfl, proper, all, _⟩ := callablePadding_eq_some_iff.mp found
      obtain ⟨front, rfl⟩ := ends
      exact absurd ⟨front, padding, back, rfl, proper, all⟩ clean

/-! ## No padding is left -/

theorem tightened_cons_of_none {c : Char} {rest : Text}
    (none : callablePadding (c :: rest) = none) :
    tightened (c :: rest) = c :: tightened rest :=
  Text.substituteAll_cons_of_none none

theorem tightened_padded {padding back : Text} (proper : padding ≠ [])
    (all : ∀ c ∈ padding, isPadding c = true) :
    tightened (callableWord ++ (padding ++ '(' :: back)) =
      callableWord ++ tightened ('(' :: back) := by
  have found := callablePadding_eq_some_iff.mpr ⟨padding, back, rfl, proper, all, rfl⟩
  have reach := callablePadding_le_length found
  have bracket : callablePadding ('(' :: back) = none := callablePadding_eq_none_of_head (by decide)
  have begins : callableWord ++ (padding ++ '(' :: back) =
    'c' :: (callableWord.tail ++ (padding ++ '(' :: back)) := rfl
  rw [begins] at found reach ⊢
  rw [tightened_cons_of_none bracket, tightened, Text.substituteAll_cons_of_some found,
    Text.substituteFrom_drop (Nat.le_of_succ_le_succ reach)]
  have behind : (callableWord.tail ++ (padding ++ '(' :: back)).drop
      (callableWord.length + padding.length) = back := by
    have regroup : callableWord.tail ++ (padding ++ '(' :: back) =
        (callableWord.tail ++ (padding ++ ['('])) ++ back := by
      simp
    rw [regroup]
    exact List.drop_left' (by simp [callableWord]; omega)
  rw [behind, List.append_assoc]
  rfl

/-- A text is gone over callable by callable: a character is kept, or a word loses
the padding behind it. -/
@[elab_as_elim]
theorem callableInduction {motive : Text → Prop} (text : Text) (nil : motive [])
    (keep : ∀ c rest, callablePadding (c :: rest) = none → motive rest → motive (c :: rest))
    (drop : ∀ padding back, padding ≠ [] → (∀ c ∈ padding, isPadding c = true) →
      motive ('(' :: back) →
      motive (callableWord ++ (padding ++ '(' :: back))) : motive text := by
  induction known : text.length using Nat.strong_induction_on generalizing text with
  | _ length ih =>
      cases text with
      | nil => exact nil
      | cons c rest =>
          cases found : callablePadding (c :: rest) with
          | none =>
            exact keep c rest found (ih _ (by rw [← known]; exact Nat.lt_succ_self _) rest rfl)
          | some result =>
              obtain ⟨padding, back, split, proper, all, -⟩ := callablePadding_eq_some_iff.mp found
              rw [split] at known ⊢
              refine drop padding back proper all (ih _ ?_ ('(' :: back) rfl)
              rw [← known, List.length_append, List.length_append]
              exact Nat.lt_of_lt_of_le (Nat.lt_add_of_pos_left (by decide))
                (Nat.add_le_add_left (Nat.le_add_left _ _) _)

/-- Characters that begin no match stand in the text from the start. -/
theorem exists_of_tightened_eq_append {text front back : Text} (without : ∀ c ∈ front, c ≠ 'c')
    (whole : tightened text = front ++ back) : ∃ rest, text = front ++ rest := by
  induction front generalizing text with
  | nil => exact ⟨text, rfl⟩
  | cons c front ih =>
      have other := without c List.mem_cons_self
      cases text with
      | nil => cases whole
      | cons d rest =>
          cases found : callablePadding (d :: rest) with
          | none =>
              rw [tightened_cons_of_none found] at whole
              obtain ⟨same, whole⟩ := List.cons.inj whole
              obtain ⟨behind, split⟩ :=
                ih (fun e mem => without e (List.mem_cons_of_mem _ mem)) whole
              exact ⟨behind, by rw [same, split]; rfl⟩
          | some result =>
              obtain ⟨padding, behind, split, proper, all, -⟩ :=
                callablePadding_eq_some_iff.mp found
              rw [split, tightened_padded proper all] at whole
              exact absurd (List.cons.inj whole).1.symm other

theorem not_mem_of_match {padding : Text} (all : ∀ c ∈ padding, isPadding c = true) :
    ∀ c ∈ callableWord.tail ++ (padding ++ ['(']), c ≠ 'c' := by
  rintro c mem rfl
  rcases List.mem_append.mp mem with word | mem
  · revert word
    decide
  · rcases List.mem_append.mp mem with pad | bracket
    · cases all _ pad
    · cases List.mem_singleton.mp bracket

/-- Where no match begins, none begins when the text behind has lost its padding. -/
theorem callablePadding_cons_tightened {c : Char} {rest : Text}
    (apart : callablePadding (c :: rest) = none) :
    callablePadding (c :: tightened rest) = none := by
  cases found : callablePadding (c :: tightened rest) with
  | none => rfl
  | some result =>
      obtain ⟨padding, back, whole, proper, all, -⟩ := callablePadding_eq_some_iff.mp found
      obtain ⟨rfl, later⟩ := List.cons.inj whole
      have regroup : tightened rest = (callableWord.tail ++ (padding ++ ['('])) ++ back := by
        rw [later]
        simp [callableWord]
      obtain ⟨behind, rfl⟩ := exists_of_tightened_eq_append (not_mem_of_match all) regroup
      have again := callablePadding_eq_some_iff.mpr ⟨padding, behind, rfl, proper, all, rfl⟩
      simp only [callableWord, List.cons_append, List.nil_append, List.append_assoc,
        List.tail_cons] at again apart
      rw [again] at apart
      cases apart

theorem hasPaddedCallable_cons_iff {c : Char} {rest : Text} :
    HasPaddedCallable (c :: rest) ↔ callablePadding (c :: rest) ≠ none ∨
    HasPaddedCallable rest := by
  constructor
  · rintro ⟨front, padding, back, split, proper, all⟩
    cases front with
    | nil =>
        have found := callablePadding_eq_some_iff.mpr ⟨padding, back, split, proper, all, rfl⟩
        exact .inl (by rw [found]; exact nofun)
    | cons d front => exact .inr ⟨front, padding, back, (List.cons.inj split).2, proper, all⟩
  · rintro (fits | padded)
    · obtain ⟨result, found⟩ := Option.ne_none_iff_exists'.mp fits
      obtain ⟨padding, back, split, proper, all, -⟩ := callablePadding_eq_some_iff.mp found
      exact ⟨[], padding, back, split, proper, all⟩
    · exact padded.of_isInfix (List.suffix_cons c rest).isInfix

theorem not_hasPaddedCallable_front {front text : Text} (absent : 'c' ∉ front)
    (clean : ¬ HasPaddedCallable text) : ¬ HasPaddedCallable (front ++ text) := by
  induction front with
  | nil => exact clean
  | cons c front ih =>
      obtain ⟨other, later⟩ := not_or.mp fun mem => absent (List.mem_cons.mpr mem)
      rw [List.cons_append, hasPaddedCallable_cons_iff,
        callablePadding_eq_none_of_head (Ne.symm other)]
      rintro (fits | padded)
      · exact fits rfl
      · exact ih later padded

theorem not_hasPaddedCallable (text : Text) : ¬ HasPaddedCallable (tightened text) := by
  induction text using callableInduction with
  | nil => exact not_hasPaddedCallable_of_not_mem List.not_mem_nil
  | keep c rest apart ih =>
      rw [tightened_cons_of_none apart, hasPaddedCallable_cons_iff,
        callablePadding_cons_tightened apart]
      rintro (fits | padded)
      · exact fits rfl
      · exact ih padded
  | drop padding back proper all ih =>
      rw [tightened_padded proper all]
      change ¬ HasPaddedCallable ('c' :: (callableWord.tail ++ tightened ('(' :: back)))
      rw [hasPaddedCallable_cons_iff]
      rintro (fits | padded)
      · -- The parenthesis stands right behind the word.
        obtain ⟨result, found⟩ := Option.ne_none_iff_exists'.mp fits
        obtain ⟨inner, more, split, proper', all', -⟩ := callablePadding_eq_some_iff.mp found
        have bracket : callablePadding ('(' :: back) = none :=
          callablePadding_eq_none_of_head (by decide)
        obtain ⟨c, inner, rfl⟩ := List.exists_cons_of_ne_nil proper'
        rw [tightened_cons_of_none bracket] at split
        have same : '(' :: tightened back = c :: (inner ++ '(' :: more) :=
          List.append_cancel_left (show callableWord ++ _ = callableWord ++ _ from split)
        cases (List.cons.inj same).1
        cases all' _ List.mem_cons_self
      · exact not_hasPaddedCallable_front (by decide) ih padded

/-- Texts that divide where they meet are without the padding together when both are. -/
theorem not_hasPaddedCallable_append {first second : Text}
    (head : ∀ c, second.head? = some c → divides c = true)
    (clean : ¬ HasPaddedCallable first) (clean' : ¬ HasPaddedCallable second) :
    ¬ HasPaddedCallable (first ++ second) := by
  have same := @tightened_append_of_head first second head
  rw [tightened_eq_self clean, tightened_eq_self clean'] at same
  rw [← same]
  exact not_hasPaddedCallable _

/-- Padding opens no parenthesis. -/
theorem not_hasPaddedCallable_padded {text padding : Text}
    (pads : ∀ c ∈ padding, isPadding c = true)
    (clean : ¬ HasPaddedCallable text) : ¬ HasPaddedCallable (text ++ padding) := by
  rintro ⟨front, inner, back, split, proper, all⟩
  have opens : '(' ∉ padding := fun mem => by cases pads _ mem
  have whole : (front ++ (callableWord ++ inner)) ++ '(' :: back = text ++ padding := by
    rw [split]
    simp only [List.append_assoc]
  rcases List.append_eq_append_iff.mp whole with ⟨more, rfl, rest⟩ | ⟨more, -, rest⟩
  · cases more with
    | nil =>
        rw [List.nil_append] at rest
        exact opens (rest ▸ List.mem_cons_self)
    | cons c more =>
        obtain ⟨rfl, -⟩ := List.cons.inj rest
        exact clean ⟨front, inner, more, by simp only [List.append_assoc], proper, all⟩
  · exact opens (rest ▸ List.mem_append_right _ List.mem_cons_self)

end Cleanup

end DocComment
