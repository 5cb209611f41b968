import DocComment.Proofs.Text.Search
import DocComment.Text.Blank
import Mathlib.Data.List.DropRight

/-!
# Trimming

Trimming the end of a text reaches back to its last character that is not
blank, and no further.
-/

namespace DocComment

namespace Text

variable {first second text : Text}

/-- Whether a blank is the last character of a text. -/
def EndsInBlank (text : Text) : Prop :=
  ∃ c, text.getLast? = some c ∧ isBlank c = true

theorem not_endsInBlank_of_getLast? {c : Char} (last : text.getLast? = some c)
    (black : isBlank c = false) : ¬ EndsInBlank text := by
  rintro ⟨d, same, blank⟩
  cases last.symm.trans same
  rw [black] at blank
  cases blank

theorem not_endsInBlank_append (proper : second ≠ []) (firm : ¬ EndsInBlank second)
    (first : Text) : ¬ EndsInBlank (first ++ second) := by
  rintro ⟨c, last, blank⟩
  rw [List.getLast?_append_of_ne_nil _ proper] at last
  exact firm ⟨c, last, blank⟩

/-- A text ends as a text that ends it. -/
theorem getLast?_of_suffix {c : Char} (suffix : second <:+ first)
    (last : second.getLast? = some c) :
    first.getLast? = some c := by
  obtain ⟨front, rfl⟩ := suffix
  rw [List.getLast?_append, last]
  rfl

theorem trimEnd_eq_rdropWhile (text : Text) : trimEnd text = text.rdropWhile isBlank :=
  rfl

theorem exists_trimEnd (text : Text) :
    ∃ blanks, text = trimEnd text ++ blanks ∧ ∀ c ∈ blanks, isBlank c = true := by
  refine ⟨text.rtakeWhile isBlank, ?_, fun c mem => List.mem_rtakeWhile_imp mem⟩
  rw [trimEnd_eq_rdropWhile, List.rdropWhile_append_rtakeWhile]

theorem trimEnd_isPrefix (text : Text) : trimEnd text <+: text :=
  List.rdropWhile_prefix isBlank text

theorem trimEnd_append_of_blank (blank : ∀ c ∈ second, isBlank c = true) :
    trimEnd (first ++ second) = trimEnd first := by
  rw [trimEnd, dropEndWhile, List.reverse_append,
    List.dropWhile_append_of_pos fun c mem => blank c (List.mem_reverse.mp mem)]
  rfl

theorem trimEnd_append_of_not_blank {c : Char} (mem : c ∈ second) (black : isBlank c = false) :
    trimEnd (first ++ second) = first ++ trimEnd second := by
  have nonempty : (second.reverse.dropWhile isBlank).isEmpty = false := by
    rw [List.isEmpty_eq_false_iff]
    intro none
    have all := List.dropWhile_eq_nil_iff.mp none c (List.mem_reverse.mpr mem)
    rw [black] at all
    cases all
  rw [trimEnd, dropEndWhile, List.reverse_append, List.dropWhile_append, nonempty,
    if_neg Bool.false_ne_true, List.reverse_append, List.reverse_reverse]
  rfl

theorem trimEnd_eq_nil (blank : ∀ c ∈ text, isBlank c = true) : trimEnd text = [] := by
  rw [trimEnd_eq_rdropWhile, List.rdropWhile_eq_nil_iff]
  exact blank

theorem trimEnd_eq_self (firm : ¬ EndsInBlank text) : trimEnd text = text := by
  rw [trimEnd_eq_rdropWhile, List.rdropWhile_eq_self_iff]
  exact fun nonempty blank => firm ⟨_, List.getLast?_eq_some_getLast nonempty, blank⟩

/-- Behind a text that does not end in a blank only what follows it is trimmed. -/
theorem trimEnd_append_of_firm (firm : ¬ EndsInBlank first) (second : Text) :
    trimEnd (first ++ second) = first ++ trimEnd second := by
  by_cases blank : ∀ c ∈ second, isBlank c = true
  · rw [trimEnd_append_of_blank blank, trimEnd_eq_self firm, trimEnd_eq_nil blank, List.append_nil]
  · simp only [not_forall, Bool.not_eq_true] at blank
    obtain ⟨c, mem, black⟩ := blank
    exact trimEnd_append_of_not_blank mem black

theorem trimEnd_of_trim (trimmed : trim text = text) : trimEnd text = text := by
  have again : trimEnd (trim text) = trim text := List.rdropWhile_idempotent isBlank _
  rwa [trimmed] at again

theorem trim_append_of_blank (blank : ∀ c ∈ second, isBlank c = true) :
    trim (first ++ second) = trim first := by
  by_cases all : ∀ c ∈ first, isBlank c = true
  · have every : ∀ c ∈ first ++ second, isBlank c = true := fun c mem =>
      (List.mem_append.mp mem).elim (all c) (blank c)
    rw [trim, trim, dropAround, dropAround, List.dropWhile_eq_nil_iff.mpr every,
      List.dropWhile_eq_nil_iff.mpr all]
  · have stays : ¬ (first.dropWhile isBlank).isEmpty = true := fun empty =>
      all (List.dropWhile_eq_nil_iff.mp (List.isEmpty_iff.mp empty))
    rw [trim, trim, dropAround, dropAround, List.dropWhile_append, if_neg stays]
    exact trimEnd_append_of_blank blank

/-- What neither begins nor ends with a blank is trimmed already. -/
theorem trim_eq_self (begins : ∀ c, text.head? = some c → isBlank c = false)
    (firm : ¬ EndsInBlank text) :
    trim text = text := by
  rw [trim, dropAround]
  cases text with
  | nil => rfl
  | cons c rest =>
      rw [List.dropWhile_cons_of_neg (by simp [begins c rfl])]
      exact trimEnd_eq_self firm

/-- A trimmed text still ends with what a part at its end is without its blanks. -/
theorem trimEnd_suffix_append (first second : Text) :
    trimEnd second <:+ trimEnd (first ++ second) := by
  by_cases blank : ∀ c ∈ second, isBlank c = true
  · rw [trimEnd_eq_nil blank]
    exact List.nil_suffix
  · simp only [not_forall, Bool.not_eq_true] at blank
    obtain ⟨c, mem, black⟩ := blank
    rw [trimEnd_append_of_not_blank mem black]
    exact List.suffix_append _ _

/-- A part that does not end in a blank is kept. -/
theorem infix_trimEnd_of_firm {front slice behind : Text} (firm : ¬ EndsInBlank slice) :
    slice <:+: trimEnd (front ++ slice ++ behind) := by
  by_cases empty : slice = []
  · rw [empty]
    exact List.nil_infix
  · rw [trimEnd_append_of_firm (not_endsInBlank_append empty firm front)]
    exact ⟨front, trimEnd behind, rfl⟩

/-! ## Words -/

theorem eq_false_of_mem_splitWhere {p : Char → Bool} {part : Text}
    (mem : part ∈ splitWhere p text) :
    ∀ c ∈ part, p c = false := by
  induction text generalizing part with
  | nil =>
      rw [List.mem_singleton.mp mem]
      simp
  | cons c rest ih =>
      rw [splitWhere] at mem
      split at mem
      next =>
        rcases List.mem_cons.mp mem with rfl | later
        · simp
        · exact ih later
      next outside =>
        have here : p c = false := by simpa using outside
        split at mem
        next =>
          rw [List.mem_singleton.mp mem]
          simpa using here
        next first parts split =>
          rw [split] at ih
          rcases List.mem_cons.mp mem with rfl | later
          · exact List.forall_mem_cons.mpr ⟨here, ih List.mem_cons_self⟩
          · exact ih (List.mem_cons_of_mem first later)

theorem proper_of_mem_words {word : Text} (mem : word ∈ words text) :
    word ≠ [] ∧ ∀ c ∈ word, isBlank c = false := by
  obtain ⟨inside, proper⟩ := List.mem_filter.mp mem
  exact ⟨by simpa using proper, eq_false_of_mem_splitWhere inside⟩

theorem join_ne_nil {separator text : Text} (proper : text ≠ []) (texts : List Text) :
    join separator (text :: texts) ≠ [] := by
  cases texts <;> simp [join, proper]

section Joined

variable {parts : List Text} (proper : ∀ part ∈ parts, part ≠ [] ∧ ∀ c ∈ part, isBlank c = false)
include proper

theorem eq_space_of_mem_join {c : Char} (mem : c ∈ join [' '] parts) (blank : isBlank c = true) :
    c = ' ' := by
  induction parts with
  | nil => cases mem
  | cons part others ih =>
      obtain ⟨⟨_, black⟩, later⟩ := List.forall_mem_cons.mp proper
      cases others with
      | nil => exact absurd blank (by simp [black c mem])
      | cons next others =>
          change c ∈ part ++ [' '] ++ join [' '] (next :: others) at mem
          rw [List.mem_append, List.mem_append, List.mem_singleton] at mem
          rcases mem with (mem | same) | mem
          · exact absurd blank (by simp [black c mem])
          · exact same
          · exact ih later mem

theorem not_endsInBlank_join : ¬ EndsInBlank (join [' '] parts) := by
  rintro ⟨c, last, blank⟩
  induction parts with
  | nil => cases last
  | cons part others ih =>
      obtain ⟨⟨_, black⟩, later⟩ := List.forall_mem_cons.mp proper
      cases others with
      | nil => exact absurd blank (by simp [black c (List.mem_of_getLast? last)])
      | cons next others =>
          have nonempty := @join_ne_nil [' '] next (later next List.mem_cons_self).1 others
          change (part ++ [' '] ++ join [' '] (next :: others)).getLast? = some c at last
          rw [List.getLast?_append_of_ne_nil _ nonempty] at last
          exact ih later last

end Joined

/-- A collapsed text has no blanks but spaces. -/
theorem eq_space_of_mem_collapse {c : Char} (mem : c ∈ collapse text) (blank : isBlank c = true) :
    c = ' ' :=
  eq_space_of_mem_join (fun _ => proper_of_mem_words) mem blank

theorem not_endsInBlank_collapse (text : Text) : ¬ EndsInBlank (collapse text) :=
  not_endsInBlank_join fun _ => proper_of_mem_words

/-! ## How trimmed texts and words begin -/

/-- A trimmed text does not begin with a blank. -/
theorem head?_trim {c : Char} (head : (trim text).head? = some c) : isBlank c = false := by
  obtain ⟨behind, whole⟩ := trimEnd_isPrefix (text.dropWhile isBlank)
  have begins : (text.dropWhile isBlank).head? = some c := by
    rw [← whole, List.head?_append, trimEnd, ← dropAround, ← trim, head]
    rfl
  have black := List.head?_dropWhile_not isBlank text
  rw [begins] at black
  simpa using black

/-- The first word of a text that does not begin with a blank begins it. -/
theorem exists_words {c : Char} (head : text.head? = some c) (black : isBlank c = false) :
    ∃ word others, words text = word :: others ∧ word.head? = some c := by
  obtain ⟨rest, rfl⟩ := List.head?_eq_some_iff.mp head
  rw [words, splitWhere, black, if_neg Bool.false_ne_true]
  cases splitWhere isBlank rest with
  | nil => exact ⟨[c], [], rfl, rfl⟩
  | cons part parts => exact ⟨c :: part, parts.filter fun word => !word.isEmpty, rfl, rfl⟩

theorem head?_join {separator first : Text} {c : Char} (head : first.head? = some c)
    (others : List Text) :
    (join separator (first :: others)).head? = some c := by
  cases others with
  | nil => exact head
  | cons second others =>
      change (first ++ separator ++ join separator (second :: others)).head? = some c
      rw [List.append_assoc, List.head?_append, head]
      rfl

end Text

end DocComment
