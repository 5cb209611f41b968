import DocComment.Proofs.Text.Closer
import DocComment.Proofs.Text.Trim
import DocComment.Rendering.Entry

/-!
# Texts with the same words

Reading a description changes only the blanks between its words.  Where the words are found again
(`afterWords?`) they are at least as long as with single spaces between them (`exists_spelling`).  A
wording that is put in their place stands where the description stood only if they are not found in
front of that (`Rewords.ne_of_found`, `Unfound`).
-/

namespace DocComment

namespace Text

/-- The characters of a text that are not blank. -/
def black (text : Text) : Text :=
  text.filter fun c => !isBlank c

/-- The text with a space for every blank. -/
def spaced (text : Text) : Text :=
  text.map fun c => if isBlank c then ' ' else c

variable {text behind rest : Text} {words : List Text}

/-! ## Characters that are not blank -/

theorem black_append (first second : Text) :
    black (first ++ second) = black first ++ black second :=
  List.filter_append first second

theorem black_eq_nil (blank : ∀ c ∈ text, isBlank c = true) : black text = [] := by
  simpa [black] using blank

theorem black_eq_self (dark : ∀ c ∈ text, isBlank c = false) : black text = text := by
  simpa [black] using dark

theorem spaced_eq_self (dark : ∀ c ∈ text, isBlank c = false) : spaced text = text := by
  refine (List.map_congr_left fun c mem => ?_).trans (List.map_id text)
  simp [dark c mem]

theorem flatten_splitWhere (p : Char → Bool) (text : Text) :
    (splitWhere p text).flatten = text.filter fun c => !p c := by
  induction text with
  | nil => rfl
  | cons c rest ih =>
      rw [splitWhere]
      cases inside : p c with
      | true => simp [ih, inside]
      | false =>
          rw [if_neg Bool.false_ne_true, List.filter_cons_of_pos (by simp [inside]), ← ih]
          cases splitWhere p rest with
          | nil => rfl
          | cons part parts => rfl

theorem flatten_words (text : Text) : (Text.words text).flatten = black text := by
  rw [Text.words, List.flatten_filter_not_isEmpty, flatten_splitWhere, black]

/-- A separator of blanks adds nothing to the texts that it joins. -/
theorem black_join {separator : Text} (blank : ∀ c ∈ separator, isBlank c = true)
    (texts : List Text) :
    black (join separator texts) = texts.flatMap black := by
  induction texts with
  | nil => rfl
  | cons first others ih =>
      cases others with
      | nil => simp [join]
      | cons second others =>
          rw [join_cons_cons, black_append, black_append, black_eq_nil blank, ih, List.append_nil]
          rfl

/-! ## Words with spaces between them -/

/-- What words are: not empty and without blanks. -/
def AreWords (words : List Text) : Prop :=
  ∀ word ∈ words, word ≠ [] ∧ ∀ c ∈ word, isBlank c = false

theorem areWords_words (text : Text) : AreWords (Text.words text) :=
  fun _ => proper_of_mem_words

theorem splitWhere_append_cons {p : Char → Bool} {c : Char} {word : Text}
    (outside : ∀ c ∈ word, p c = false) (inside : p c = true)
    (rest : Text) : splitWhere p (word ++ c :: rest) = word :: splitWhere p rest := by
  obtain ⟨first, others, split, whole⟩ := splitWhere_append outside (c :: rest)
  rw [splitWhere, if_pos inside] at split
  cases split
  rw [whole, List.append_nil]

theorem splitWhere_eq_singleton {p : Char → Bool} {word : Text}
    (outside : ∀ c ∈ word, p c = false) :
    splitWhere p word = [word] := by
  obtain ⟨first, others, split, whole⟩ := splitWhere_append outside []
  cases split
  rwa [List.append_nil] at whole

/-- Words are found again in the text that joins them with spaces. -/
theorem words_join (areWords : AreWords words) : Text.words (join [' '] words) = words := by
  induction words with
  | nil => rfl
  | cons word others ih =>
      obtain ⟨⟨proper, dark⟩, later⟩ := List.forall_mem_cons.mp areWords
      cases others with
      | nil => simp [join, Text.words, splitWhere_eq_singleton dark, proper]
      | cons second others =>
          have split :=
            @splitWhere_append_cons isBlank ' ' word dark rfl (join [' '] (second :: others))
          rw [join_cons_cons, List.append_assoc, List.singleton_append, Text.words, split,
            List.filter_cons_of_pos (by simpa using proper), ← Text.words, ih later]

theorem head?_join_words {word : Text} {others : List Text} (areWords : AreWords (word :: others)) :
    ∃ c, (join [' '] (word :: others)).head? = some c ∧ isBlank c = false := by
  obtain ⟨⟨proper, dark⟩, -⟩ := List.forall_mem_cons.mp areWords
  obtain ⟨c, more, rfl⟩ := List.exists_cons_of_ne_nil proper
  exact ⟨c, head?_join rfl others, dark c List.mem_cons_self⟩

theorem afterWords?_join (areWords : AreWords words) :
    afterWords? words (join [' '] words) = some [] := by
  induction words with
  | nil => rfl
  | cons word others ih =>
      obtain ⟨-, later⟩ := List.forall_mem_cons.mp areWords
      cases others with
      | nil => simpa [afterWords?, join] using after?_append word []
      | cons second others =>
          obtain ⟨c, head, dark⟩ := head?_join_words later
          obtain ⟨more, joined⟩ := List.head?_eq_some_iff.mp head
          have trimmed : trimStart (' ' :: join [' '] (second :: others)) =
              join [' '] (second :: others) := by
            rw [trimStart, List.dropWhile_cons_of_pos (by decide), joined,
              List.dropWhile_cons_of_neg (by simp [dark])]
          rw [join_cons_cons, List.append_assoc, List.singleton_append, afterWords?, after?_append,
            Option.bind_some]
          · dsimp only
            rw [if_pos (by decide), trimmed, ih later]
          · exact List.cons_ne_nil _ _

/--
Where words are found they take at least as much room as with single spaces between them, and
if they take no more, then they differ from that only in the blanks.
-/
theorem exists_spelling (areWords : AreWords words) (found : afterWords? words text = some behind) :
    ∃ spelling, text = spelling ++ behind ∧ (join [' '] words).length ≤ spelling.length ∧
      (spelling.length = (join [' '] words).length → spaced spelling = join [' '] words) := by
  induction words generalizing text with
  | nil =>
      cases found
      exact ⟨[], rfl, Nat.le_refl _, fun _ => rfl⟩
  | cons word others ih =>
      obtain ⟨⟨-, dark⟩, later⟩ := List.forall_mem_cons.mp areWords
      cases others with
      | nil => exact ⟨word, eq_append_of_after? found, Nat.le_refl _, fun _ => spaced_eq_self dark⟩
      | cons second others =>
          obtain ⟨rest, first, found⟩ := Option.bind_eq_some_iff.mp found
          cases rest with
          | nil => cases found
          | cons c rest =>
              dsimp only at found
              split at found
              next blank =>
                obtain ⟨spelling, split, longer, alike⟩ := ih later found
                have whole := List.takeWhile_append_dropWhile (p := isBlank) (l := rest)
                rw [trimStart, List.dropWhile_cons_of_pos blank] at split
                refine ⟨word ++ c :: (rest.takeWhile isBlank ++ spelling), ?_, ?_, fun same => ?_⟩
                · rw [eq_append_of_after? first, List.append_assoc, List.cons_append,
                    List.append_assoc, ← split, whole]
                · simp only [join_cons_cons, List.length_append, List.length_cons, List.length_nil]
                  omega
                · simp only [join_cons_cons, List.length_append, List.length_cons,
                    List.length_nil] at same
                  have none : rest.takeWhile isBlank = [] :=
                    List.eq_nil_of_length_eq_zero (by omega)
                  have rest := alike (by omega)
                  rw [join_cons_cons, ← rest, none, List.nil_append, spaced, List.map_append,
                    List.map_cons, if_pos blank, ← spaced, ← spaced, spaced_eq_self dark,
                    List.append_assoc, List.singleton_append]
              next => cases found

/-! ## Texts that repeat their end -/

/-- A text that ends as it goes on is made of repetitions of that end. -/
theorem suffix_of_repeats {unit shift : Text} (proper : unit ≠ [])
    (same : text ++ unit = shift ++ text) {count : Nat} (enough : text.length ≤ count) :
    text <:+ (List.replicate count unit).flatten := by
  induction count generalizing text with
  | zero =>
      rw [List.eq_nil_of_length_eq_zero (Nat.le_zero.mp enough)]
      exact List.nil_suffix
  | succ count ih =>
      rw [List.replicate_succ', List.flatten_concat]
      have ends : text <:+ text ++ unit := same ▸ List.suffix_append shift text
      rcases List.suffix_or_suffix_of_suffix ends (List.suffix_append text unit) with short |
        ⟨front, rfl⟩
      · exact short.trans (List.suffix_append _ _)
      · have goesOn : front ++ unit = shift ++ front := by
          rw [← List.append_assoc] at same
          exact List.append_cancel_right same
        have positive := List.length_pos_iff.mpr proper
        rw [List.length_append] at enough
        obtain ⟨more, whole⟩ := ih goesOn (by omega)
        exact ⟨more, by rw [← whole, List.append_assoc]⟩

/-- Two texts that end as they go on, in the same way, end alike. -/
theorem suffix_or_suffix_of_repeats {first second unit shift shift' : Text} (proper : unit ≠ [])
    (same : first ++ unit = shift ++ first) (same' : second ++ unit = shift' ++ second) :
    first <:+ second ∨ second <:+ first :=
  List.suffix_or_suffix_of_suffix
    (suffix_of_repeats proper same (Nat.le_max_left first.length second.length))
    (suffix_of_repeats proper same' (Nat.le_max_right first.length second.length))

/-! ## Wordings -/

/-- A text that differs from a description only in the blanks between its words. -/
structure Rewords (wording description : Text) : Prop where
  collapsed : collapse description = description
  black : black wording = black description
  begins : ∃ c, isBlank c = false ∧ description.head? = some c ∧ wording.head? = some c
  differs : wording ≠ description

/-- Of two texts with the same characters that are not blank none ends with the
other one, when both begin with one. -/
theorem eq_of_suffix {first second : Text} {c : Char} (ends : first <:+ second)
    (same : black first = black second)
    (begins : second.head? = some c) (dark : isBlank c = false) : first = second := by
  obtain ⟨front, rfl⟩ := ends
  rw [black_append] at same
  have empty : black front = [] := List.self_eq_append_left.mp same
  cases front with
  | nil => rfl
  | cons d front =>
      cases begins
      simp [black, dark] at empty

theorem spaced_append (first second : Text) :
    spaced (first ++ second) = spaced first ++ spaced second :=
  List.map_append

/-- A collapsed text has spaces for its blanks already. -/
theorem spaced_of_mem {part : Text} (collapsed : collapse text = text) (within : part ⊆ text) :
    spaced part = part := by
  refine (List.map_congr_left fun c mem => ?_).trans (List.map_id part)
  split
  next blank => exact (eq_space_of_mem_collapse (collapsed.symm ▸ within mem) blank).symm
  next => rfl

/--
Where the words of a description are found too early, its wording does not come to stand in the
place of the description: else both would repeat what is left behind, and so be the same.
-/
theorem Rewords.ne_of_found {wording description middle : Text}
    (rewords : Rewords wording description) (proper : middle ≠ [])
    (found : afterWords? (Text.words description) (middle ++ description) = some behind) :
    wording ++ behind ≠ middle ++ wording := by
  intro same
  obtain ⟨c, dark, begins, begins'⟩ := rewords.begins
  obtain ⟨spelling, split, -, alike⟩ := exists_spelling (areWords_words description) found
  rw [← collapse, rewords.collapsed] at alike
  have moved := congrArg List.length same
  have whole := congrArg List.length split
  rw [List.length_append, List.length_append] at moved whole
  have spelled : spaced spelling = description := alike (by omega)
  have behindIn : behind <:+ middle ++ description := split ▸ List.suffix_append spelling behind
  have describedIn : description <:+ middle ++ description := List.suffix_append middle description
  have ends : wording <:+ description ∨ description <:+ wording := by
    by_cases short : description.length ≤ behind.length
    · have within := List.suffix_of_suffix_length_le describedIn behindIn short
      have both : description <:+ middle ++ wording :=
        same ▸ within.trans (List.suffix_append wording behind)
      exact List.suffix_or_suffix_of_suffix (List.suffix_append middle wording) both
    · have within := List.suffix_of_suffix_length_le behindIn describedIn (by omega)
      have goesOn : description ++ behind = spaced middle ++ description := by
        calc description ++ behind = spaced spelling ++ spaced behind := by
              rw [spelled, spaced_of_mem rewords.collapsed within.subset]
          _ = spaced (middle ++ description) := by rw [split, spaced_append]
          _ = spaced middle ++ description := by
              rw [spaced_append, spaced_of_mem rewords.collapsed (List.Subset.refl description)]
      have left : behind ≠ [] := by
        rintro rfl
        exact proper
          (List.eq_nil_of_length_eq_zero (by simp only [List.length_nil] at moved; omega))
      exact suffix_or_suffix_of_repeats left same goesOn
  rcases ends with within | within
  · exact rewords.differs (eq_of_suffix within rewords.black begins dark)
  · exact rewords.differs (eq_of_suffix within rewords.black.symm begins' dark).symm

/-! ## The first suffix that fits -/

section First

variable {rule : Text → Option Text} {front before : Text}

theorem splitFirstBy?_of_fits (fits : rule rest = some behind) :
    splitFirstBy? rule rest = some ([], behind) := by
  cases rest <;> simp [splitFirstBy?, fits]

/-- Where no suffix that begins in front of a text fits, the first one is found in the text. -/
theorem splitFirstBy?_append
    (unfit : ∀ middle, middle <:+ front → middle ≠ [] → rule (middle ++ rest) = none) :
    splitFirstBy? rule (front ++ rest) = (splitFirstBy? rule rest).map fun found =>
      (front ++ found.1, found.2) := by
  induction front with
  | nil => simp
  | cons c front ih =>
      have here := unfit (c :: front) (List.suffix_refl _) (List.cons_ne_nil _ _)
      have later := ih fun middle within => unfit middle (within.trans (List.suffix_cons c front))
      rw [List.cons_append] at here ⊢
      rw [splitFirstBy?, here]
      dsimp only
      rw [later, Option.map_map]
      rfl

/-- No suffix that fits is longer than the first one. -/
theorem exists_splitFirstBy? (fits : rule rest ≠ none) :
    ∃ before behind, splitFirstBy? rule (front ++ rest) = some (before, behind) ∧
      before <+: front := by
  induction front with
  | nil =>
      obtain ⟨behind, found⟩ := Option.ne_none_iff_exists'.mp fits
      exact ⟨[], behind, splitFirstBy?_of_fits found, List.nil_prefix⟩
  | cons c front ih =>
      rw [List.cons_append, splitFirstBy?]
      split
      next behind _ => exact ⟨[], behind, rfl, List.nil_prefix⟩
      next =>
        obtain ⟨before, behind, found, short⟩ := ih
        exact ⟨c :: before, behind, by rw [found]; rfl, List.cons_prefix_cons.mpr ⟨rfl, short⟩⟩

end First

/-- The words are not found in front of a text, neither by themselves nor across
the place where it begins. -/
def Unfound (words : List Text) (front rest : Text) : Prop :=
  ∀ middle, middle <:+ front → middle ≠ [] → afterWords? words (middle ++ rest) = none

instance (words : List Text) (front rest : Text) : Decidable (Unfound words front rest) :=
  decidable_of_iff (∀ middle ∈ front.tails, middle ≠ [] → afterWords? words (middle ++ rest) = none)
    (by simp only [Unfound, List.mem_tails])

end Text

end DocComment
