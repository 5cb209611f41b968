import DocComment.Proofs.Text.Words
import DocComment.Proofs.Token.Unjoined

/-!
# Lines without their decoration

Putting a text on one line strips each line of its blanks and of one star, whether or not that star
stands where decoration does (`Cleanup.bareLine`).  A star behind another blank than padding belongs
to what the line says, and is lost (`Text.hasStrayStar`).
-/

namespace DocComment

open Token

namespace Text

variable {c : Char} {text first second line : Text}

/-! ## Words -/

theorem splitWhere_append_break {p : Char → Bool} (inside : p c = true) (first second : Text) :
    splitWhere p (first ++ c :: second) = splitWhere p first ++ splitWhere p second := by
  induction first with
  | nil =>
      change splitWhere p (c :: second) = [] :: splitWhere p second
      exact if_pos inside
  | cons d first ih =>
      rw [List.cons_append, splitWhere, splitWhere, ih]
      split
      next => rfl
      next =>
        obtain ⟨part, parts, split, -, -⟩ := exists_splitWhere p first
        rw [split]
        rfl

theorem words_append_break (blank : isBlank c = true) (first second : Text) :
    words (first ++ c :: second) = words first ++ words second := by
  rw [words, splitWhere_append_break blank, List.filter_append]
  rfl

theorem words_eq_nil (blank : ∀ c ∈ text, isBlank c = true) : words text = [] := by
  refine List.eq_nil_iff_forall_not_mem.mpr fun word mem => ?_
  obtain ⟨proper, dark⟩ := proper_of_mem_words mem
  obtain ⟨c, rest, rfl⟩ := List.exists_cons_of_ne_nil proper
  have white := blank c ((infix_of_mem_words mem).subset List.mem_cons_self)
  rw [dark c List.mem_cons_self] at white
  cases white

theorem words_append_of_blank (blank : ∀ c ∈ second, isBlank c = true) :
    words (first ++ second) = words first := by
  cases second with
  | nil => rw [List.append_nil]
  | cons c second =>
      obtain ⟨white, others⟩ := List.forall_mem_cons.mp blank
      rw [words_append_break white, words_eq_nil others, List.append_nil]

theorem words_of_blank_append (blank : ∀ c ∈ first, isBlank c = true) :
    words (first ++ second) = words second := by
  induction first with
  | nil => rfl
  | cons c first ih =>
      obtain ⟨white, others⟩ := List.forall_mem_cons.mp blank
      exact (words_append_break white [] (first ++ second)).trans (ih others)

/-! ## Trimming -/

theorem trim_of_blank_append (blank : ∀ c ∈ first, isBlank c = true) :
    trim (first ++ second) = trim second := by
  rw [trim, dropAround, List.dropWhile_append_of_pos blank]
  rfl

/-- Around a trimmed text there are blanks only. -/
theorem exists_trim (text : Text) :
    ∃ lead trail, text = lead ++ (trim text ++ trail) ∧ (∀ c ∈ lead, isBlank c = true) ∧
      ∀ c ∈ trail, isBlank c = true := by
  refine ⟨text.takeWhile isBlank, (text.dropWhile isBlank).rtakeWhile isBlank, ?_, ?_, ?_⟩
  · have whole : trim text ++ (text.dropWhile isBlank).rtakeWhile isBlank =
        text.dropWhile isBlank :=
      List.rdropWhile_append_rtakeWhile
    rw [whole, List.takeWhile_append_dropWhile]
  · exact fun c mem => List.mem_takeWhile_imp mem
  · exact fun c mem => List.mem_rtakeWhile_imp mem

theorem trim_eq_nil (blank : ∀ c ∈ text, isBlank c = true) : trim text = [] := by
  rw [← List.append_nil text, trim_of_blank_append blank]
  rfl

theorem exists_trimStart (text : Text) :
    ∃ trail, trimStart text = trim text ++ trail ∧ ∀ c ∈ trail, isBlank c = true :=
  ⟨(text.dropWhile isBlank).rtakeWhile isBlank, (List.rdropWhile_append_rtakeWhile).symm,
    fun _ mem => List.mem_rtakeWhile_imp mem⟩

theorem trimEnd_cons_of_not_blank (black : isBlank c = false) (text : Text) :
    trimEnd (c :: text) = c :: trimEnd text := by
  rw [trimEnd, dropEndWhile, List.reverse_cons, List.dropWhile_append]
  split
  next none =>
    rw [List.dropWhile_cons_of_neg (Bool.eq_false_iff.mp black), trimEnd, dropEndWhile,
      List.isEmpty_iff.mp none]
    rfl
  next => exact List.reverse_append

theorem trim_cons_of_not_blank (black : isBlank c = false) (text : Text) :
    trim (c :: text) = c :: trimEnd text := by
  rw [trim, dropAround, List.dropWhile_cons_of_neg (Bool.eq_false_iff.mp black)]
  exact trimEnd_cons_of_not_blank black text

theorem getLast?_trim (last : (trim text).getLast? = some c) : isBlank c = false := by
  have proper : trim text ≠ [] := fun none => by
    rw [none] at last
    cases last
  have dark : ¬ isBlank ((trim text).getLast proper) = true :=
    List.rdropWhile_last_not isBlank _ proper
  rw [List.getLast?_eq_some_getLast proper, Option.some.injEq] at last
  exact Bool.eq_false_iff.mpr (last ▸ dark)

theorem words_trim (text : Text) : words (trim text) = words text := by
  obtain ⟨lead, trail, whole, blank, blank'⟩ := exists_trim text
  conv_rhs => rw [whole]
  rw [words_of_blank_append blank, words_append_of_blank blank']

theorem trimStart_of_blank_append (blank : ∀ c ∈ first, isBlank c = true) :
    trimStart (first ++ second) = trimStart second :=
  List.dropWhile_append_of_pos blank

/-! ## What is lost -/

/-- Only characters that are not blank are lost, or else no word is. -/
def Loses (lost : Bool) (whole kept : Text) : Prop :=
  if lost then (black kept).length < (black whole).length else words kept = words whole

theorem black_of_words (same : words first = words second) : black first = black second := by
  rw [← flatten_words, ← flatten_words, same]

theorem Loses.length_le {lost : Bool} {whole kept : Text} (loses : Loses lost whole kept) :
    (black kept).length ≤ (black whole).length := by
  cases lost with
  | true => exact Nat.le_of_lt loses
  | false => exact Nat.le_of_eq (congrArg List.length (black_of_words loses))

section Loses

variable {lost other : Bool} {first' second' : Text}

theorem Loses.append_blank (loses : Loses lost first first')
    (blank : ∀ c ∈ text, isBlank c = true) :
    Loses lost (first ++ text) first' := by
  cases lost with
  | false => exact loses.trans (words_append_of_blank blank).symm
  | true =>
      rw [Loses, if_pos rfl, black_append, black_eq_nil blank, List.append_nil]
      exact loses

/-- Two texts with a space between them lose what either loses. -/
theorem Loses.append (loses : Loses lost first first') (later : Loses other second second') :
    Loses (lost || other) (first ++ ' ' :: second) (first' ++ ' ' :: second') := by
  have less := loses.length_le
  have less' := later.length_le
  have split (one two : Text) : black (one ++ ' ' :: two) = black one ++ black two :=
    black_append one (' ' :: two)
  cases lost with
  | true =>
      change (black first').length < (black first).length at loses
      change (black _).length < (black _).length
      rw [split, split, List.length_append, List.length_append]
      omega
  | false =>
      cases other with
      | true =>
          change (black second').length < (black second).length at later
          change (black _).length < (black _).length
          rw [split, split, List.length_append, List.length_append]
          omega
      | false =>
          change words first' = words first at loses
          change words second' = words second at later
          change words _ = words _
          rw [words_append_break rfl, words_append_break rfl, loses, later]

theorem Loses.of_space (loses : Loses lost first (' ' :: second)) : Loses lost first second := by
  cases lost with
  | true => exact loses
  | false => exact loses

/-- The words in order are the same unless something is lost. -/
theorem Loses.collapse_eq_iff (loses : Loses lost first second) :
    collapse second = collapse first ↔ lost = false := by
  have collapsed (text : Text) : words (collapse text) = words text :=
    words_join (areWords_words text)
  cases lost with
  | false => exact iff_of_true (congrArg (join [' ']) loses) rfl
  | true =>
      refine iff_of_false (fun same => ?_) nofun
      have same' : words second = words first := by rw [← collapsed second, same, collapsed]
      exact Nat.ne_of_lt loses (congrArg List.length (black_of_words same'))

end Loses

/-! ## Lines -/

theorem lines_append_feed (unbroken : '\n' ∉ line) (rest : Text) :
    lines (line ++ '\n' :: rest) = line :: lines rest :=
  splitWhere_append_cons
    (fun _ mem => beq_eq_false_iff_ne.mpr (ne_of_mem_of_not_mem mem unbroken)) rfl rest

theorem lines_of_unbroken (unbroken : '\n' ∉ line) : lines line = [line] :=
  splitWhere_eq_singleton fun _ mem => beq_eq_false_iff_ne.mpr (ne_of_mem_of_not_mem mem unbroken)

theorem mem_join {parts : List Text} (mem : c ∈ join [' '] parts) :
    c = ' ' ∨ ∃ part ∈ parts, c ∈ part := by
  induction parts with
  | nil => cases mem
  | cons part others ih =>
      cases others with
      | nil => exact Or.inr ⟨part, List.mem_cons_self, mem⟩
      | cons next others =>
          rw [join_cons_cons, List.mem_append, List.mem_append, List.mem_singleton] at mem
          rcases mem with (mem | space) | mem
          · exact Or.inr ⟨part, List.mem_cons_self, mem⟩
          · exact Or.inl space
          · exact (ih mem).imp_right fun ⟨found, held, within⟩ =>
              ⟨found, List.mem_cons_of_mem _ held, within⟩

theorem joinParts_cons (part : Text) (parts : List Text) :
    joinParts (part :: parts) = joinParts [part, joinParts parts] := by
  cases part with
  | nil =>
      change joinParts parts = joinParts [joinParts parts]
      exact (Payload.Grammar.joinParts_singleton _).symm
  | cons c part =>
      have whole : joinParts ((c :: part) :: parts) =
        join [' '] ((c :: part) :: parts.filter fun part => !part.isEmpty) := rfl
      rw [whole]
      cases kept : parts.filter fun part => !part.isEmpty with
      | nil =>
          have none : joinParts parts = [] := by rw [joinParts, kept, join]
          rw [none, Payload.Grammar.joinParts_pair_nil, join]
      | cons first others =>
          have proper : first ≠ [] := by
            have mem : first ∈ parts.filter fun part => !part.isEmpty := kept ▸ List.mem_cons_self
            rintro rfl
            cases (List.mem_filter.mp mem).2
          have some : joinParts parts = join [' '] (first :: others) := by rw [joinParts, kept]
          rw [some, Payload.Grammar.joinParts_pair _ (join_ne_nil proper others), join_cons_cons,
            List.append_assoc]
          rfl

/-! ## Decoration -/

/-- In front of a line that is decorated stands padding, and then a star or no star
of decoration. -/
theorem decoration_cases (line : Text) :
    ∃ pads rest, (∀ c ∈ pads, isPadding c = true) ∧
      ((line = pads ++ '*' :: rest ∧ decorationLength line = pads.length + 1 ∧
        rest.head? ≠ some '/') ∨
        (line = pads ++ rest ∧ decorationLength line = pads.length ∧
          (∀ c, rest.head? = some c → isPadding c = false) ∧
          (rest.head? = some '*' → rest.tail.head? = some '/'))) := by
  induction line with
  | nil => exact ⟨[], [], nofun, Or.inr ⟨rfl, rfl, nofun, nofun⟩⟩
  | cons c line ih =>
      rw [decorationLength_cons]
      split
      next pads? =>
        obtain ⟨pads, rest, all, cases?⟩ := ih
        refine ⟨c :: pads, rest, List.forall_mem_cons.mpr ⟨pads?, all⟩, ?_⟩
        rcases cases? with ⟨whole, length, open?⟩ | ⟨whole, length, firm, closes⟩
        · exact Or.inl ⟨congrArg (c :: ·) whole, by rw [length, List.length_cons], open?⟩
        · exact Or.inr ⟨congrArg (c :: ·) whole, by rw [length, List.length_cons], firm, closes⟩
      next hard =>
        split
        next star =>
          obtain ⟨rfl, open?⟩ := star
          exact ⟨[], line, nofun, Or.inl ⟨rfl, rfl, open?⟩⟩
        next plain =>
          refine ⟨[], c :: line, nofun, Or.inr ⟨rfl, rfl, ?_, fun star => ?_⟩⟩
          · rintro _ ⟨⟩
            exact Bool.eq_false_iff.mpr hard
          · cases star
            exact not_not.mp fun open? => plain ⟨rfl, open?⟩

/-- Whether a line begins with a star that does not close the comment, behind
blanks that are not all padding. -/
def hasStrayStar (line : Text) : Bool :=
  (trimStart line).head? == some '*' && (trimStart line).tail.head? != some '/' &&
    (line.dropWhile isPadding).head? != some '*'

theorem hasStrayStar_iff {line : Text} :
    hasStrayStar line = true ↔ ((trim line).head? = some '*' ∧ (trim line).tail.head? ≠ some '/') ∧
      (line.dropWhile isPadding).head? ≠ some '*' := by
  rw [hasStrayStar, Bool.and_eq_true, Bool.and_eq_true, beq_iff_eq, bne_iff_ne, bne_iff_ne]
  obtain ⟨trail, whole, blank⟩ := exists_trimStart line
  rw [whole]
  refine and_congr ?_ Iff.rfl
  cases trim line with
  | nil =>
      rw [List.nil_append]
      refine iff_of_false (fun both => ?_) (nofun)
      have white := blank '*' (List.mem_of_head? both.1)
      cases white
  | cons c more =>
      cases more with
      | cons d more => exact Iff.rfl
      | nil =>
          refine and_congr Iff.rfl (iff_of_true (fun slash => ?_) nofun)
          have white := blank '/' (List.mem_of_head? slash)
          cases white

/-- What stands from a closing marker on does not make a star stray. -/
theorem hasStrayStar_append_closer (line rest : Text) :
    hasStrayStar (line ++ '*' :: '/' :: rest) = hasStrayStar line := by
  by_cases blank : ∀ c ∈ line, isBlank c = true
  · rw [hasStrayStar, hasStrayStar, trimStart_of_blank_append blank]
    have none : trimStart line = [] := List.dropWhile_eq_nil_iff.mpr blank
    rw [none]
    rfl
  · have dark : trimStart line ≠ [] := fun none => blank (List.dropWhile_eq_nil_iff.mp none)
    have hard : line.dropWhile isPadding ≠ [] := fun none =>
      blank fun c mem => isBlank_of_isPadding (List.dropWhile_eq_nil_iff.mp none c mem)
    obtain ⟨first, kept, start⟩ := List.exists_cons_of_ne_nil dark
    obtain ⟨second, left, begins⟩ := List.exists_cons_of_ne_nil hard
    have start' : trimStart (line ++ '*' :: '/' :: rest) =
        first :: (kept ++ '*' :: '/' :: rest) := by
      rw [trimStart, List.dropWhile_append, if_neg (by rwa [List.isEmpty_iff]), ← trimStart, start]
      rfl
    have begins' : (line ++ '*' :: '/' :: rest).dropWhile isPadding =
        second :: (left ++ '*' :: '/' :: rest) := by
      rw [List.dropWhile_append, if_neg (by rwa [List.isEmpty_iff]), begins]
      rfl
    rw [hasStrayStar, hasStrayStar, start, start', begins, begins']
    cases kept with
    | nil => rfl
    | cons next kept => rfl

end Text

namespace Cleanup

open Text

variable {c : Char} {line rest : Text}

theorem onOneLine_of_unbroken (unbroken : '\n' ∉ line) : onOneLine line = bareLine line := by
  rw [onOneLine, lines_of_unbroken unbroken]
  exact Payload.Grammar.joinParts_singleton _

theorem onOneLine_append_feed (unbroken : '\n' ∉ line) (rest : Text) :
    onOneLine (line ++ '\n' :: rest) = joinParts [bareLine line, onOneLine rest] := by
  rw [onOneLine, lines_append_feed unbroken, List.map_cons, joinParts_cons]
  rfl

theorem bareLine_eq (line : Text) :
    bareLine line = if (trim line).head? = some '*' ∧
    (trim line).tail.head? ≠ some '/' then trim (trim line).tail
      else trim line := by
  rw [bareLine]
  split
  next rest stands => rw [stands, if_neg fun both => both.2 rfl]
  next rest open? stands =>
    rw [stands, if_pos]
    · rfl
    refine ⟨rfl, fun closes => ?_⟩
    obtain ⟨more, rfl⟩ := List.head?_eq_some_iff.mp closes
    exact open? more rfl
  next plain =>
    rw [if_neg]
    rintro ⟨star, -⟩
    obtain ⟨more, stands⟩ := List.head?_eq_some_iff.mp star
    exact plain more stands

/-- Behind its decoration a line loses only a stray star and the blanks around its text. -/
theorem bareLine_cases (line : Text) :
    (hasStrayStar line = false ∧ bareLine line = trim (line.drop (decorationLength line))) ∨
      ∃ rest, hasStrayStar line = true ∧ trim (line.drop (decorationLength line)) = '*' :: rest ∧
        rest.head? ≠ some '/' ∧ bareLine line = trim rest := by
  obtain ⟨pads, rest, all, cases?⟩ := decoration_cases line
  have blank : ∀ c ∈ pads, isBlank c = true := fun c mem => isBlank_of_isPadding (all c mem)
  rcases cases? with ⟨whole, length, open?⟩ | ⟨whole, length, firm, closes⟩
  · have star : trim line = '*' :: trimEnd rest := by
      rw [whole, trim_of_blank_append blank, trim_cons_of_not_blank rfl]
    obtain ⟨trail, split, soft⟩ := exists_trimEnd rest
    refine Or.inl ⟨?_, ?_⟩
    · rw [← Bool.not_eq_true, hasStrayStar_iff, whole, List.dropWhile_append_of_pos all]
      exact fun stray => stray.2 rfl
    · have open' : (trimEnd rest).head? ≠ some '/' :=
        fun slash => open? (by rw [split, List.head?_append, slash]; rfl)
      have behind : line.drop (pads.length + 1) = rest := by
        rw [whole, List.append_cons]
        exact List.drop_left' (by rw [List.length_append]; rfl)
      rw [bareLine_eq, star, if_pos ⟨rfl, open'⟩, length, behind]
      conv_rhs => rw [split, trim_append_of_blank soft]
      rfl
  · have same : trim line = trim rest := by rw [whole, trim_of_blank_append blank]
    have behind : line.drop pads.length = rest := by rw [whole, List.drop_left]
    have hard : line.dropWhile isPadding = rest := by
      rw [whole, List.dropWhile_append_of_pos all]
      cases rest with
      | nil => rfl
      | cons c rest => exact List.dropWhile_cons_of_neg (Bool.eq_false_iff.mp (firm c rfl))
    rw [length, behind, bareLine_eq, same]
    by_cases stray : (trim rest).head? = some '*' ∧ (trim rest).tail.head? ≠ some '/'
    · obtain ⟨more, stands⟩ := List.head?_eq_some_iff.mp stray.1
      refine Or.inr ⟨more, ?_, stands, ?_, ?_⟩
      · rw [hasStrayStar_iff, same, hard]
        refine ⟨stray, fun star => ?_⟩
        obtain ⟨front, rfl⟩ := List.head?_eq_some_iff.mp star
        obtain ⟨more, rfl⟩ := List.head?_eq_some_iff.mp (closes star)
        rw [trim_cons_of_not_blank rfl, trimEnd_cons_of_not_blank rfl] at stray
        exact stray.2 rfl
      · have open? := stray.2
        rwa [stands] at open?
      · rw [if_pos stray, stands]
        rfl
    · refine Or.inl ⟨?_, if_neg stray⟩
      rw [← Bool.not_eq_true, hasStrayStar_iff, same]
      exact fun both => stray both.1

/-- A line without its decoration is trimmed. -/
theorem exists_trim_bareLine (line : Text) : ∃ text, bareLine line = trim text := by
  rcases bareLine_cases line with ⟨-, kept⟩ | ⟨rest, -, -, -, kept⟩
  · exact ⟨_, kept⟩
  · exact ⟨_, kept⟩

theorem unbroken_bareLine (unbroken : '\n' ∉ line) : '\n' ∉ bareLine line := by
  have trimmed : '\n' ∉ trim line := fun mem => unbroken ((trim_isInfix line).subset mem)
  rw [bareLine_eq]
  split
  · exact fun mem => trimmed (List.tail_subset _ ((trim_isInfix _).subset mem))
  · exact trimmed

theorem isBlank_of_head?_bareLine (head : (bareLine line).head? = some c) : isBlank c = false := by
  obtain ⟨text, kept⟩ := exists_trim_bareLine line
  exact head?_trim (kept ▸ head)

theorem isBlank_of_getLast?_bareLine (last : (bareLine line).getLast? = some c) :
    isBlank c = false := by
  obtain ⟨text, kept⟩ := exists_trim_bareLine line
  exact getLast?_trim (kept ▸ last)

theorem isBlank_of_head?_onOneLine {text : Text} (head : (onOneLine text).head? = some c) :
    isBlank c = false := by
  rw [onOneLine, joinParts] at head
  cases kept : ((lines text).map bareLine).filter fun part => !part.isEmpty with
  | nil =>
      rw [kept] at head
      cases head
  | cons first others =>
      have mem : first ∈ ((lines text).map bareLine).filter fun part => !part.isEmpty :=
        kept ▸ List.mem_cons_self
      obtain ⟨held, proper⟩ := List.mem_filter.mp mem
      obtain ⟨line, -, rfl⟩ := List.mem_map.mp held
      cases stands : bareLine line with
      | nil =>
          rw [stands] at proper
          cases proper
      | cons d more =>
          have begins : (bareLine line).head? = some d := by rw [stands]; rfl
          rw [kept, head?_join begins] at head
          cases head
          exact isBlank_of_head?_bareLine begins

theorem exists_onOneLine (unbroken : '\n' ∉ line) (ends : rest = [] ∨ ∃ more, rest = '\n' :: more) :
    ∃ others, onOneLine (line ++ rest) = joinParts [bareLine line, others] := by
  rcases ends with rfl | ⟨more, rfl⟩
  · rw [List.append_nil, onOneLine_of_unbroken unbroken]
    exact ⟨[], (Payload.Grammar.joinParts_pair_nil _).symm⟩
  · exact ⟨_, onOneLine_append_feed unbroken more⟩

theorem unbroken_onOneLine (text : Text) : '\n' ∉ onOneLine text := by
  intro mem
  rcases mem_join mem with space | ⟨part, held, within⟩
  · cases space
  · obtain ⟨line, stands, rfl⟩ := List.mem_map.mp (List.mem_filter.mp held).1
    refine unbroken_bareLine (fun feed => ?_) within
    exact beq_eq_false_iff_ne.mp (eq_false_of_mem_splitWhere stands '\n' feed) rfl

end Cleanup

end DocComment
