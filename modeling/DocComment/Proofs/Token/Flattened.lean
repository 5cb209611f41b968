import DocComment.Proofs.Reading.Transplant
import DocComment.Proofs.Text.Bare

/-!
# The pieces of a text that is put on one line

Of every line the pieces without the blanks around them are kept, with a space for the line break,
and a stray star is lost (`Flattened`).  That this is what becomes of the characters is proved here
up to the closing marker (`exists_flattened`).
-/

namespace DocComment

namespace Token

open Cursor Text Cleanup

variable {c : Char} {text rest line more : Text}
  {tokens front core back before behind kept : List Token} {token : Token}
  {stray lost : Bool}

/-! ## Lines of pieces -/

/-- What a line loses in front: blanks and perhaps a stray star. -/
structure IsFront (stray : Bool) (front : List Token) : Prop where
  soft : ∀ token ∈ front, token.kind = .padding ∨ token.kind = .other
  black : black (textOf front) = if stray then ['*'] else []

/-- What a line keeps: tokens that begin with no blank. -/
structure IsCore (core : List Token) : Prop where
  inLine : ∀ token ∈ core, isInLine token.kind = true
  pieces : ∀ token ∈ core, token.IsPiece
  begins : ∀ c, (textOf core).head? = some c → isBlank c = false

/-- Tokens and others behind a space, where there are any in front. -/
def spliced (core kept : List Token) : List Token :=
  if core.isEmpty then kept else core ++ ⟨.padding, [' ']⟩ :: kept

/-- The tokens up to some place of a text, and those up to the same place of the
text on one line. -/
inductive Flattened : Bool → List Token → List Token → Prop
  | last {stray : Bool} {front core : List Token} (cut : IsFront stray front) (isCore : IsCore core) :
      Flattened stray (front ++ core) core
  | line {stray lost : Bool} {front core back before kept : List Token} {broken : Token} (cut : IsFront stray front)
      (isCore : IsCore core) (ends : ∀ c, (textOf core).getLast? = some c → isBlank c = false) (soft : AreSoft back)
      (breaks : broken.kind = .lineBreak) (later : Flattened lost before kept) :
      Flattened (stray || lost) (front ++ (core ++ (back ++ broken :: before))) (spliced core kept)

/-! ## Pieces of a line -/

theorem unjoined_feed {carriage : Text} (single : carriage = [] ∨ carriage = ['\r']) (more : Text) :
    unjoined (carriage ++ '\n' :: more) =
      ⟨.lineBreak, carriage ++ '\n' :: more.take (decorationLength more)⟩ ::
        unjoined (more.drop (decorationLength more)) := by
  rcases single with rfl | rfl
  · exact unjoined_cons '\n' more
  · exact unjoined_cons '\r' ('\n' :: more)

theorem unjoined_of_mem (mem : token ∈ unjoined text) : ∃ c rest, c :: rest <:+ text ∧
    token = ⟨(piece c rest).1, c :: rest.take (piece c rest).2⟩ := by
  obtain ⟨front, back, cut⟩ := List.append_of_mem mem
  have whole := textOf_unjoined text
  rw [cut, textOf_append] at whole
  obtain ⟨c, rest, stands, same, -⟩ := exists_piece (unjoined_textOf cut)
  exact ⟨c, rest, ⟨textOf front, stands ▸ whole⟩, same⟩

theorem isPiece_of_mem_unjoined (mem : token ∈ unjoined text) : token.IsPiece := by
  obtain ⟨c, rest, -, rfl⟩ := unjoined_of_mem mem
  exact ⟨c, rest, _, rfl, rfl⟩

theorem ne_lineBreak_of_mem_unjoined (unbroken : '\n' ∉ text) (mem : token ∈ unjoined text) :
    token.kind ≠ .lineBreak := by
  obtain ⟨c, rest, suffix, rfl⟩ := unjoined_of_mem mem
  intro broken
  have cut : Cut c rest (piece c rest).1 (piece c rest).2 := cut_of_piece (Prod.ext rfl rfl)
  rcases cut.feed_or broken with ⟨rfl, -⟩ | ⟨more, -, rfl, -⟩
  · exact unbroken (suffix.subset List.mem_cons_self)
  · exact unbroken (suffix.subset (List.mem_cons_of_mem _ List.mem_cons_self))

/-- Blanks at the end of a line are pieces of their own, a carriage return belongs
to the line break. -/
theorem exists_unjoined_trail {trail : Text} (blank : ∀ c ∈ trail, isBlank c = true)
    (unbroken : '\n' ∉ trail) (ends : rest = [] ∨ rest.head? = some '\n') :
    ∃ back carriage, unjoined (trail ++ rest) = back ++ unjoined (carriage ++ rest) ∧ AreSoft back ∧
      (carriage = [] ∨ (carriage = ['\r'] ∧ rest ≠ [])) := by
  have firm : ∀ c, rest.head? = some c → isPadding c = false := by
    rintro c head
    rcases ends with rfl | ends
    · cases head
    · rw [ends] at head
      cases head
      decide
  by_cases returns : rest.head? = some '\n' ∧ trail.getLast? = some '\r'
  · obtain ⟨front, rfl⟩ := List.getLast?_eq_some_iff.mp returns.2
    have front? : front ⊆ front ++ ['\r'] := List.subset_append_left _ _
    have hard : ∀ c, ('\r' :: rest).head? = some c → isPadding c = false := by
      rintro _ ⟨⟩
      decide
    obtain ⟨back, cut, -, soft⟩ := exists_unjoined_of_blank (fun c mem => blank c (front? mem))
      (fun mem => unbroken (front? mem)) hard nofun
    refine ⟨back, ['\r'], ?_, soft, Or.inr ⟨rfl, ?_⟩⟩
    · rw [List.append_assoc]
      exact cut
    · rintro rfl
      cases returns.1
  · obtain ⟨back, cut, -, soft⟩ :=
      exists_unjoined_of_blank blank unbroken firm fun head last => returns ⟨head, last⟩
    exact ⟨back, [], cut, soft, Or.inl rfl⟩

/-- Around the pieces of a trimmed line there are blanks only. -/
theorem exists_unjoined_trim (unbroken : '\n' ∉ line) (ends : rest = [] ∨ rest.head? = some '\n')
    (quoteless : Quoteless (unjoined (line ++ rest))) :
    ∃ front back carriage,
      unjoined (line ++ rest) =
        front ++ (unjoined (trim line) ++ (back ++ unjoined (carriage ++ rest))) ∧
        AreSoft front ∧ AreSoft back ∧ Quoteless (unjoined (trim line)) ∧
          (carriage = [] ∨ (carriage = ['\r'] ∧ rest ≠ [])) := by
  obtain ⟨lead, trail, whole, blank, blank'⟩ := exists_trim line
  have lead? : lead ⊆ line := fun c mem => whole ▸ List.mem_append_left _ mem
  have trail? : trail ⊆ line :=
    fun c mem => whole ▸ List.mem_append_right _ (List.mem_append_right _ mem)
  by_cases none : trim line = []
  · rw [none]
    have all : ∀ c ∈ line, isBlank c = true := by
      rw [whole, none, List.nil_append]
      exact List.forall_mem_append.mpr ⟨blank, blank'⟩
    obtain ⟨back, carriage, cut, soft, single⟩ := exists_unjoined_trail all unbroken ends
    exact ⟨[], back, carriage, cut, nofun, soft, nofun, single⟩
  · obtain ⟨first, others, stands⟩ := List.exists_cons_of_ne_nil none
    have dark : isBlank first = false := head?_trim (by rw [stands]; rfl)
    have head : (trim line ++ (trail ++ rest)).head? = some first := by
      rw [stands]
      rfl
    obtain ⟨front, cut, -, soft⟩ :=
      @exists_unjoined_of_blank (trim line ++ (trail ++ rest)) lead blank
      (fun mem => unbroken (lead? mem))
      (fun c stands => by
        rw [head] at stands
        cases stands
        exact Bool.eq_false_iff.mpr fun pads =>
          Bool.eq_false_iff.mp dark (isBlank_of_isPadding pads))
      (fun feed => by
        rw [head] at feed
        cases feed
        cases dark)
    obtain ⟨back, carriage, cut', soft', single⟩ :=
      exists_unjoined_trail blank' (fun mem => unbroken (trail? mem)) ends
    have pieces : unjoined (line ++ rest) = front ++ unjoined (trim line ++ (trail ++ rest)) := by
      conv_lhs => rw [whole, List.append_assoc, List.append_assoc]
      exact cut
    have quoteless' : Quoteless (unjoined (trim line)) :=
      quoteless_front (quoteless.of_subset (pieces ▸ List.subset_append_right _ _))
        (fun _ last => getLast?_trim last) blank'
        (fun mem => unbroken (trail? mem)) ends
    have soft'' := isBlank_of_head?_trail blank' ends
    refine ⟨front, back, carriage, ?_, soft, soft', quoteless', single⟩
    rw [pieces, unjoined_append quoteless' (fun _ last => getLast?_trim last) soft'', cut']

theorem black_of_areSoft (soft : AreSoft tokens) : black (textOf tokens) = [] := by
  refine black_eq_nil fun c mem => ?_
  obtain ⟨token, held, within⟩ := List.mem_flatMap.mp mem
  exact (soft token held).2 c within

/-- Behind the decoration of a line stand the pieces that it keeps. -/
theorem exists_unjoined_bareLine (unbroken : '\n' ∉ line)
    (ends : rest = [] ∨ rest.head? = some '\n')
    (quoteless : Quoteless (unjoined (line.drop (decorationLength line) ++ rest))) :
    ∃ front back carriage,
      unjoined (line.drop (decorationLength line) ++ rest) =
          front ++ (unjoined (bareLine line) ++ (back ++ unjoined (carriage ++ rest))) ∧
        IsFront (hasStrayStar line) front ∧ AreSoft back ∧ Quoteless (unjoined (bareLine line)) ∧
          (carriage = [] ∨ (carriage = ['\r'] ∧ rest ≠ [])) := by
  have unbroken' : '\n' ∉ line.drop (decorationLength line) :=
    fun mem => unbroken (List.mem_of_mem_drop mem)
  obtain ⟨front, back, carriage, pieces, soft, soft', quoteless', single⟩ :=
    exists_unjoined_trim unbroken' ends quoteless
  rcases bareLine_cases line with ⟨plain, kept⟩ | ⟨more, stray, star, open?, kept⟩
  · rw [kept, plain]
    exact ⟨front, back, carriage, pieces,
      ⟨fun token mem => (soft token mem).1, black_of_areSoft soft⟩, soft', quoteless', single⟩
  · have first : unjoined ('*' :: more) = ⟨.other, ['*']⟩ :: unjoined (more ++ []) := by
      rw [unjoined_cons, piece_star open?, List.append_nil]
      rfl
    have within : '\n' ∉ more :=
      fun mem => unbroken' ((trim_isInfix _).subset (star ▸ List.mem_cons_of_mem _ mem))
    rw [star, first] at quoteless'
    obtain ⟨lead, trail, none, pieces', blank, blank', quoteless'', single'⟩ :=
      @exists_unjoined_trim [] more within (Or.inl rfl)
        (quoteless'.of_subset (List.subset_cons_self _ _))
    have none' : none = [] := single'.resolve_right fun both => both.2 rfl
    rw [none', List.nil_append, unjoined_nil, List.append_nil trail] at pieces'
    rw [kept, stray]
    refine ⟨front ++ ⟨.other, ['*']⟩ :: lead, trail ++ back, carriage, ?_, ⟨?_, ?_⟩, ?_,
      quoteless'', single⟩
    · rw [pieces, star, first, pieces']
      simp only [List.append_assoc, List.cons_append]
    · refine List.forall_mem_append.mpr
        ⟨fun token mem => (soft token mem).1, List.forall_mem_cons.mpr ⟨Or.inr rfl, ?_⟩⟩
      exact fun token mem => (blank token mem).1
    · rw [textOf_append, textOf_cons, black_append, black_append, black_of_areSoft soft,
        black_of_areSoft blank]
      rfl
    · exact List.forall_mem_append.mpr ⟨blank', soft'⟩

/-! ## Pieces of joined lines -/

theorem unjoined_space (firm : ∀ c, rest.head? = some c → isBlank c = false) :
    unjoined (' ' :: rest) = ⟨.padding, [' ']⟩ :: unjoined rest := by
  have run : runLength isPadding rest = 0 := by
    cases rest with
    | nil => rfl
    | cons d rest =>
        have hard : ¬ isPadding d = true :=
          fun pads => Bool.eq_false_iff.mp (firm d rfl) (isBlank_of_isPadding pads)
        rw [runLength, List.takeWhile_cons_of_neg hard]
        rfl
  rw [unjoined_cons, piece_padding rfl, run]
  rfl

theorem unjoined_joinParts (quoteless : Quoteless (unjoined text))
    (firm : ∀ c, text.getLast? = some c → isBlank c = false)
    (proper : rest ≠ []) (begins : ∀ c, rest.head? = some c → isBlank c = false) :
    unjoined (joinParts [text, rest]) = spliced (unjoined text) (unjoined rest) := by
  rw [Payload.Grammar.joinParts_pair _ proper, spliced]
  cases text with
  | nil => rfl
  | cons c text =>
      have soft : ∀ d, (' ' :: rest).head? = some d → isBlank d = true := by
        rintro _ ⟨⟩
        decide
      have spaced := unjoined_append quoteless firm soft
      rw [unjoined_space begins] at spaced
      rw [unjoined_cons] at spaced ⊢
      exact spaced

/-- What is joined to a line does not change the pieces of the line. -/
theorem exists_unjoined_joinParts (quoteless : Quoteless (unjoined text))
    (firm : ∀ c, text.getLast? = some c → isBlank c = false) (proper : text ≠ []) (rest : Text) :
    ∃ tail, unjoined (joinParts [text, rest]) = unjoined text ++ tail := by
  cases rest with
  | nil =>
      rw [Payload.Grammar.joinParts_pair_nil]
      exact ⟨[], (List.append_nil _).symm⟩
  | cons d rest =>
      have soft : ∀ e, (' ' :: d :: rest).head? = some e → isBlank e = true := by
        rintro _ ⟨⟩
        decide
      rw [Payload.Grammar.joinParts_pair _ (List.cons_ne_nil _ _),
        if_neg (by rwa [List.isEmpty_iff])]
      exact ⟨_, unjoined_append quoteless firm soft⟩

theorem behind_or_within {others : List Token}
    (same : front ++ others = before ++ token :: behind) :
    (∃ middle, before = front ++ middle ∧ others = middle ++ token :: behind) ∨
      ∃ more, front = before ++ token :: more ∧ behind = more ++ others := by
  rcases List.append_eq_append_iff.mp same with both | ⟨more, split, rest⟩
  · exact Or.inl both
  · cases more with
    | nil => exact Or.inl ⟨[], by rw [split, List.append_nil, List.append_nil], rest.symm⟩
    | cons first more =>
        obtain ⟨rfl, later⟩ := List.cons.inj rest
        exact Or.inr ⟨more, split, later⟩

theorem exists_line (text : Text) :
    ∃ line rest, text = line ++ rest ∧ '\n' ∉ line ∧ (rest = [] ∨ ∃ more, rest = '\n' :: more) := by
  induction text with
  | nil => exact ⟨[], [], rfl, nofun, Or.inl rfl⟩
  | cons c text ih =>
      by_cases feed : c = '\n'
      · exact ⟨[], c :: text, rfl, nofun, Or.inr ⟨text, by rw [feed]⟩⟩
      · obtain ⟨line, rest, rfl, unbroken, ends⟩ := ih
        exact ⟨c :: line, rest, rfl,
          fun mem => (List.mem_cons.mp mem).elim (fun same => feed same.symm) unbroken, ends⟩

theorem decorationLength_line (ends : rest = [] ∨ rest.head? = some '\n') :
    decorationLength (line ++ rest) = decorationLength line := by
  refine decorationLength_append ?_ fun _ => ?_
  · rcases ends with rfl | ends
    · exact nofun
    · rw [ends]
      decide
  · cases rest with
    | nil => rfl
    | cons c rest =>
        rcases ends with ends | ends
        · cases ends
        · cases ends
          exact decorationLength_cons '\n' rest

theorem spliced_append (core kept others : List Token) :
    spliced core (kept ++ others) = spliced core kept ++ others := by
  rw [spliced, spliced]
  split
  · rfl
  · rw [List.append_assoc]
    rfl

theorem isCore_of_front (unbroken : '\n' ∉ text)
    (begins : ∀ c, text.head? = some c → isBlank c = false)
    (within : kept <+: unjoined text) (unclosed : ∀ token ∈ kept, token.kind ≠ .closing) :
    IsCore kept where
  inLine token mem := by
    rw [← Bool.not_eq_false, isInLine_eq_false_iff, not_or]
    exact ⟨ne_lineBreak_of_mem_unjoined unbroken (within.subset mem), unclosed token mem⟩
  pieces token mem := isPiece_of_mem_unjoined (within.subset mem)
  begins c head := by
    obtain ⟨more, whole⟩ := within
    refine begins c ?_
    rw [← textOf_unjoined text, ← whole, textOf_append, List.head?_append, head]
    rfl

section Lines

variable {carriage : Text}
  (pieces : unjoined (line.drop (decorationLength line) ++ rest) =
    front ++ (unjoined (bareLine line) ++ (back ++ unjoined (carriage ++ rest))))
include pieces

theorem drop_decoration_eq :
    line.drop (decorationLength line) =
      textOf front ++ (bareLine line ++ (textOf back ++ carriage)) := by
  have whole := textOf_unjoined (line.drop (decorationLength line) ++ rest)
  rw [pieces, textOf_append, textOf_append, textOf_append, textOf_unjoined,
    textOf_unjoined] at whole
  simp only [← List.append_assoc] at whole ⊢
  exact (List.append_cancel_right whole).symm

/-- A closing marker on the line itself. -/
theorem flattened_of_within (unbroken : '\n' ∉ line)
    (ends : rest = [] ∨ ∃ more, rest = '\n' :: more)
    (cut : IsFront (hasStrayStar line) front) (quoteless : Quoteless (unjoined (bareLine line)))
    (split : unjoined (bareLine line) = kept ++ ⟨.closing, closer⟩ :: behind)
    (unclosed : ∀ token ∈ kept, token.kind ≠ .closing) :
    (∃ tail, unjoined (onOneLine (line ++ rest)) = kept ++ ⟨.closing, closer⟩ :: tail) ∧
      Flattened
        ((Text.lines (line.take (decorationLength line) ++ textOf (front ++ kept))).any
        hasStrayStar)
        (front ++ kept) kept := by
  have covers := drop_decoration_eq pieces
  have proper : bareLine line ≠ [] := by
    intro none
    rw [none] at split
    exact absurd split.symm (List.append_ne_nil_of_right_ne_nil _ (List.cons_ne_nil _ _))
  refine ⟨?_, ?_⟩
  · obtain ⟨others, joins⟩ := exists_onOneLine unbroken ends
    obtain ⟨tail, whole⟩ :=
      exists_unjoined_joinParts quoteless
        (fun _ last => isBlank_of_getLast?_bareLine last) proper others
    exact ⟨behind ++ tail, by rw [joins, whole, split, List.append_assoc]; rfl⟩
  · have whole : line = line.take (decorationLength line) ++ textOf (front ++ kept) ++
        '*' :: '/' :: (textOf behind ++ (textOf back ++ carriage)) := by
      have core := textOf_unjoined (bareLine line)
      rw [split] at core
      conv_lhs => rw [← List.take_append_drop (decorationLength line) line, covers, ← core]
      simp only [textOf_append, textOf_cons, List.append_assoc]
      rfl
    have unbroken' : '\n' ∉ line.take (decorationLength line) ++
        textOf (front ++ kept) := fun mem =>
      unbroken (whole ▸ List.mem_append_left _ mem)
    have same : hasStrayStar (line.take (decorationLength line) ++ textOf (front ++ kept)) =
        hasStrayStar line := by
      conv_rhs => rw [whole]
      exact (hasStrayStar_append_closer _ _).symm
    rw [Text.lines_of_unbroken unbroken', List.any_cons, List.any_nil, Bool.or_false, same]
    exact .last cut
      (isCore_of_front (unbroken_bareLine unbroken) (fun _ head => isBlank_of_head?_bareLine head)
      ⟨_, split.symm⟩ unclosed)

end Lines

/-- A closing marker behind the line. -/
theorem flattened_of_later {carriage : Text} {tail : List Token}
    (pieces : unjoined (line.drop (decorationLength line) ++ '\n' :: more) =
      front ++ (unjoined (bareLine line) ++ (back ++ unjoined (carriage ++ '\n' :: more))))
    (unbroken : '\n' ∉ line) (cut : IsFront (hasStrayStar line) front) (soft : AreSoft back)
    (quoteless : Quoteless (unjoined (bareLine line)))
    (unclosed : ∀ token ∈ unjoined (bareLine line), token.kind ≠ .closing)
    (whole : unjoined (onOneLine more) = kept ++ ⟨.closing, closer⟩ :: tail)
    (later :
      Flattened ((Text.lines (more.take (decorationLength more) ++ textOf before)).any hasStrayStar)
      before kept) :
    let broken : Token := ⟨.lineBreak, carriage ++ '\n' :: more.take (decorationLength more)⟩
    unjoined (onOneLine (line ++ '\n' :: more)) =
      spliced (unjoined (bareLine line)) kept ++ ⟨.closing, closer⟩ :: tail ∧
      Flattened ((Text.lines (line.take (decorationLength line) ++
          textOf (front ++ (unjoined (bareLine line) ++ (back ++ broken :: before))))).any
            hasStrayStar)
        (front ++ (unjoined (bareLine line) ++ (back ++ broken :: before)))
          (spliced (unjoined (bareLine line)) kept) := by
  intro broken
  have firm : ∀ c, (bareLine line).getLast? = some c → isBlank c = false :=
    fun _ last => isBlank_of_getLast?_bareLine last
  refine ⟨?_, ?_⟩
  · have proper : onOneLine more ≠ [] := by
      intro none
      rw [none] at whole
      exact absurd whole.symm (List.append_ne_nil_of_right_ne_nil _ (List.cons_ne_nil _ _))
    rw [onOneLine_append_feed unbroken,
      unjoined_joinParts quoteless firm proper fun _ head => isBlank_of_head?_onOneLine head, whole,
      spliced_append]
  · have covers : line.take (decorationLength line) ++
        textOf (front ++ (unjoined (bareLine line) ++ (back ++ broken :: before))) =
          line ++ '\n' :: (more.take (decorationLength more) ++ textOf before) := by
      conv_rhs =>
        rw [← List.take_append_drop (decorationLength line) line, drop_decoration_eq pieces]
      simp only [textOf_append, textOf_cons, textOf_unjoined, List.append_assoc, broken]
      rfl
    rw [covers, Text.lines_append_feed unbroken, List.any_cons]
    refine .line cut
      (isCore_of_front (unbroken_bareLine unbroken) (fun _ head => isBlank_of_head?_bareLine head)
      (List.prefix_refl _) unclosed) ?_ soft rfl later
    rwa [textOf_unjoined]

/-- A closing marker stands among what a line keeps, or behind the line. -/
theorem within_or_later {core rest : List Token} (isFront : IsFront stray front)
    (soft : AreSoft back)
    (cut : front ++ (core ++ (back ++ rest)) = before ++ ⟨.closing, closer⟩ :: behind) :
    (∃ found more, before = front ++ found ∧ core = found ++ ⟨.closing, closer⟩ :: more) ∨
      ∃ later, before = front ++ (core ++ (back ++ later)) ∧
        rest = later ++ ⟨.closing, closer⟩ :: behind := by
  rcases behind_or_within cut with ⟨found, rfl, inner⟩ | ⟨more, split, -⟩
  · rcases behind_or_within inner with ⟨middle, rfl, last⟩ | ⟨more, split, -⟩
    · rcases behind_or_within last with ⟨later, rfl, rest⟩ | ⟨more, split, -⟩
      · exact Or.inr ⟨later, rfl, rest⟩
      · have mem : (⟨.closing, closer⟩ : Token) ∈ back :=
          split ▸ List.mem_append_right _ List.mem_cons_self
        cases (soft _ mem).1 with
        | inl pads => cases pads
        | inr other => cases other
    · exact Or.inl ⟨found, more, rfl, split⟩
  · have mem : (⟨.closing, closer⟩ : Token) ∈ front :=
      split ▸ List.mem_append_right _ List.mem_cons_self
    cases isFront.soft _ mem with
    | inl pads => cases pads
    | inr other => cases other

/-- Up to its closing marker a text on one line is cut as the lines of the text are. -/
theorem exists_flattened (quoteless : Quoteless (unjoined (text.drop (decorationLength text))))
    (cut : unjoined (text.drop (decorationLength text)) = before ++ ⟨.closing, closer⟩ :: behind)
    (unclosed : ∀ token ∈ before, token.kind ≠ .closing) :
    ∃ kept tail, unjoined (onOneLine text) = kept ++ ⟨.closing, closer⟩ :: tail ∧
      Flattened ((Text.lines (text.take (decorationLength text) ++ textOf before)).any hasStrayStar)
        before kept := by
  -- By induction on the lines: the first one holds the closing marker, or the marker is among
  -- those behind it.
  induction known : text.length using Nat.strong_induction_on generalizing text before with
  | _ length ih =>
    obtain ⟨line, rest, rfl, unbroken, ends⟩ := exists_line text
    have ends' : rest = [] ∨ rest.head? = some '\n' :=
      ends.imp id fun ⟨more, stands⟩ => congrArg List.head? stands
    have within := decorationLength_le line
    rw [decorationLength_line ends', List.drop_append_of_le_length within] at quoteless cut
    rw [decorationLength_line ends', List.take_append_of_le_length within]
    obtain ⟨front, back, carriage, pieces, isFront, soft, quoteless', single⟩ :=
      exists_unjoined_bareLine unbroken ends' quoteless
    rw [pieces] at cut
    rcases within_or_later isFront soft cut with ⟨found, more, rfl, split⟩ | ⟨later, rfl, cut'⟩
    · obtain ⟨⟨tail, whole⟩, flattened⟩ :=
        flattened_of_within pieces unbroken ends isFront quoteless' split
        (fun token mem => unclosed token (List.mem_append_right _ mem))
      exact ⟨found, tail, whole, flattened⟩
    · rcases ends with rfl | ⟨more, rfl⟩
      · obtain rfl := single.resolve_right fun both => both.2 rfl
        exact absurd cut'.symm (List.append_ne_nil_of_right_ne_nil _ (List.cons_ne_nil _ _))
      · have feed := unjoined_feed (single.imp_right And.left) more
        rw [feed] at cut'
        cases later with
        | nil => cases cut'
        | cons broken before =>
            obtain ⟨rfl, inner⟩ := List.cons.inj cut'
            have shorter : more.length < length := by
              rw [← known, List.length_append, List.length_cons]
              omega
            have quoteless'' : Quoteless (unjoined (more.drop (decorationLength more))) := by
              rw [pieces, feed] at quoteless
              refine quoteless.of_subset fun token mem =>
                List.mem_append_right _ (List.mem_append_right _ ?_)
              exact List.mem_append_right _ (List.mem_cons_of_mem _ mem)
            obtain ⟨unclosed', others⟩ :=
              List.forall_mem_append.mp (List.forall_mem_append.mp unclosed).2
            have unclosed'' := (List.forall_mem_cons.mp (List.forall_mem_append.mp others).2).2
            obtain ⟨kept, tail, whole, flattened⟩ :=
              ih more.length shorter quoteless'' inner unclosed'' rfl
            exact ⟨_, tail,
              flattened_of_later pieces unbroken isFront soft quoteless' unclosed' whole flattened⟩

end Token

end DocComment
