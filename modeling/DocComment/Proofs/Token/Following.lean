import DocComment.Proofs.Token.Flattened

/-!
# What stands behind a token of a text on one line

The words of the lines are those of the one line, but for stray stars (`Flattened.loses`).  A token
that blanks and line breaks alone stand in front of comes first on the one line, and what stands
behind it is the rest of its line with the further lines (`Flattened.exists_following`).
-/

namespace DocComment

namespace Token

open Cursor Text

variable {stray lost other : Bool} {token marker : Token}
  {tokens front core back before kept whole : List Token}

/-! ## Running text -/

/-- The text of tokens with a space for every line break. -/
def runningText (tokens : List Token) : Text :=
  tokens.flatMap fun token => if token.kind = .lineBreak then [' '] else token.text

@[simp]
theorem runningText_append (first second : List Token) :
    runningText (first ++ second) = runningText first ++ runningText second :=
  List.flatMap_append

theorem runningText_cons (token : Token) (tokens : List Token) :
    runningText (token :: tokens) =
      (if token.kind = .lineBreak then [' '] else token.text) ++ runningText tokens :=
  rfl

theorem runningText_of_lineBreak (breaks : token.kind = .lineBreak) (tokens : List Token) :
    runningText (token :: tokens) = ' ' :: runningText tokens := by
  rw [runningText_cons, if_pos breaks]
  rfl

theorem runningText_of_unbroken (unbroken : ∀ token ∈ tokens, token.kind ≠ .lineBreak) :
    runningText tokens = textOf tokens := by
  induction tokens with
  | nil => rfl
  | cons token tokens ih =>
      obtain ⟨first, others⟩ := List.forall_mem_cons.mp unbroken
      rw [runningText_cons, if_neg first, ih others, textOf_cons]

theorem runningText_of_inLine (inLine : ∀ token ∈ tokens, isInLine token.kind = true) :
    runningText tokens = textOf tokens := by
  refine runningText_of_unbroken fun token mem broken => ?_
  have inside := inLine token mem
  rw [broken] at inside
  cases inside

theorem runningText_prepend (token : Token) (tokens : List Token) :
    runningText (prepend token tokens) = runningText (token :: tokens) := by
  cases tokens with
  | nil => rfl
  | cons next tokens =>
      rw [prepend]
      split
      next both =>
        have hard : ¬ Kind.other = Kind.lineBreak := by decide
        rw [runningText_cons, runningText_cons, runningText_cons, if_neg hard, both.1, both.2,
          if_neg hard, if_neg hard, List.append_assoc]
      next => rfl

theorem runningText_joined (tokens : List Token) :
    runningText (joined tokens) = runningText tokens := by
  induction tokens with
  | nil => rfl
  | cons token tokens ih =>
    rw [joined_cons, runningText_prepend, runningText_cons, ih, runningText_cons]

theorem blank_runningText (blank : Payload.Grammar.AreBlank tokens) :
    ∀ c ∈ runningText tokens, isBlank c = true := by
  intro c mem
  obtain ⟨token, held, within⟩ := List.mem_flatMap.mp mem
  split at within
  next =>
    rw [List.mem_singleton.mp within]
    decide
  next unbroken => exact (blank token held).resolve_left unbroken c within

/-! ## What is lost -/

theorem loses_front (cut : IsFront stray front) (text : Text) :
    Loses stray (textOf front ++ text) text := by
  have black := cut.black
  cases stray with
  | false =>
      have blank : ∀ c ∈ textOf front, isBlank c = true := fun c mem => by
        have none := List.filter_eq_nil_iff.mp black c mem
        rwa [Bool.not_eq_true', Bool.not_eq_false] at none
      exact (words_of_blank_append blank).symm
  | true =>
      rw [Loses, if_pos rfl, black_append, black, if_pos rfl, List.length_append]
      exact Nat.lt_add_of_pos_left Nat.one_pos

theorem loses_spliced {text : Text} (loses : Loses lost text (textOf core ++ ' ' :: textOf kept)) :
    Loses lost text (textOf (spliced core kept)) := by
  rw [spliced]
  split
  next none =>
    rw [List.isEmpty_iff.mp none] at loses
    exact Loses.of_space loses
  next =>
    rw [textOf_append]
    exact loses

theorem IsFront.inLine (cut : IsFront stray front) :
    ∀ token ∈ front, isInLine token.kind = true := by
  intro token mem
  rcases cut.soft token mem with kind | kind
  · rw [kind]
    rfl
  · rw [kind]
    rfl

theorem AreSoft.inLine (soft : AreSoft back) : ∀ token ∈ back, isInLine token.kind = true := by
  intro token mem
  rcases (soft token mem).1 with kind | kind
  · rw [kind]
    rfl
  · rw [kind]
    rfl

theorem AreSoft.blank (soft : AreSoft back) : ∀ c ∈ textOf back, isBlank c = true := by
  intro c mem
  obtain ⟨token, held, within⟩ := List.mem_flatMap.mp mem
  exact (soft token held).2 c within

theorem IsCore.spliced (isCore : IsCore core) (isCore' : IsCore kept) :
    IsCore (spliced core kept) := by
  rw [Token.spliced]
  split
  next => exact isCore'
  next proper =>
    constructor
    case inLine =>
      exact List.forall_mem_append.mpr
        ⟨isCore.inLine, List.forall_mem_cons.mpr ⟨rfl, isCore'.inLine⟩⟩
    case pieces =>
      exact List.forall_mem_append.mpr
        ⟨isCore.pieces, List.forall_mem_cons.mpr ⟨⟨' ', [], 0, rfl, rfl⟩, isCore'.pieces⟩⟩
    case begins =>
      obtain ⟨first, core, rfl⟩ :=
        List.exists_cons_of_ne_nil fun none => proper (List.isEmpty_iff.mpr none)
      obtain ⟨d, rest, length, -, written⟩ := isCore.pieces first List.mem_cons_self
      have begins := isCore.begins
      rw [textOf_cons, written] at begins
      rw [List.cons_append, textOf_cons, written]
      exact begins

/-- Tokens that are kept and hold blanks only are none. -/
theorem IsCore.eq_nil {more : List Token} (isCore : IsCore (core ++ more))
    (blank : ∀ c ∈ textOf core, isBlank c = true) :
    core = [] := by
  cases core with
  | nil => rfl
  | cons first core =>
      obtain ⟨c, rest, length, -, written⟩ := isCore.pieces first List.mem_cons_self
      have head : (textOf (first :: core ++ more)).head? = some c := by
        rw [List.cons_append, textOf_cons, written]
        rfl
      have dark := isCore.begins c head
      have mem : c ∈ textOf (first :: core) := by
        rw [textOf_cons, written]
        exact List.mem_append_left _ List.mem_cons_self
      rw [blank c mem] at dark
      cases dark

namespace Flattened

theorem isCore (flattened : Flattened lost before kept) : IsCore kept := by
  induction flattened with
  | last cut isCore => exact isCore
  | line cut isCore ends soft breaks later ih => exact isCore.spliced ih

/-- The words of the lines are kept, and where a star is lost some character is. -/
theorem loses (flattened : Flattened lost before kept) :
    Loses lost (runningText before) (textOf kept) := by
  induction flattened with
  | @last stray front core cut isCore =>
      rw [runningText_append, runningText_of_inLine cut.inLine, runningText_of_inLine isCore.inLine]
      exact loses_front cut _
  | @line stray lost front core back before kept broken cut isCore ends soft breaks later ih =>
      refine loses_spliced ?_
      have here := (loses_front cut (textOf core)).append_blank soft.blank
      rw [runningText_append, runningText_append, runningText_append,
        runningText_of_lineBreak breaks, runningText_of_inLine cut.inLine,
        runningText_of_inLine isCore.inLine, runningText_of_inLine soft.inLine, ← List.append_assoc,
        ← List.append_assoc]
      exact here.append ih

/-- Nothing is kept of blank lines. -/
theorem eq_nil (flattened : Flattened lost before kept)
    (blank : ∀ c ∈ runningText before, isBlank c = true) :
    lost = false ∧ kept = [] := by
  have loses := flattened.loses
  have none : black (runningText before) = [] := black_eq_nil blank
  have kept? : black (textOf kept) = [] := by
    have less := loses.length_le
    rw [none] at less
    exact List.length_eq_zero_iff.mp (Nat.le_zero.mp less)
  refine ⟨?_, ?_⟩
  · cases lost with
    | false => rfl
    | true =>
        change (black _).length < (black _).length at loses
        rw [none] at loses
        exact absurd loses (Nat.not_lt_zero _)
  · have isCore : IsCore (kept ++ []) := by
      rw [List.append_nil]
      exact flattened.isCore
    refine isCore.eq_nil fun c mem => ?_
    have dark := List.filter_eq_nil_iff.mp kept? c mem
    rwa [Bool.not_eq_true', Bool.not_eq_false] at dark

end Flattened

/-! ## Behind the first token -/

/-- The tokens behind one on its line and the next ones, and those behind it on the one line. -/
inductive Following : Bool → List Token → List Token → Prop
  | last (line : List Token) : Following false line line
  | line {lost : Bool} {core back before kept : List Token} {broken : Token}
      (ends : ∀ c, (textOf core).getLast? = some c → isBlank c = false) (soft : AreSoft back)
      (breaks : broken.kind = .lineBreak) (later : Flattened lost before kept) :
      Following lost (core ++ (back ++ broken :: before)) (core ++ ⟨.padding, [' ']⟩ :: kept)

theorem IsFront.eq_false (cut : IsFront stray front)
    (blank : ∀ c ∈ textOf front, isBlank c = true) : stray = false := by
  have none := cut.black
  rw [black_eq_nil blank] at none
  cases stray with
  | false => rfl
  | true => cases none

theorem IsFront.not_mem (cut : IsFront stray front) (hard : marker.kind ≠ .padding)
    (known : marker.kind ≠ .other) :
    marker ∉ front := fun mem =>
  (cut.soft marker mem).elim hard known

/-- A token that is no blank and no line break stands behind those at the end of a line. -/
theorem exists_behind_end {lead more : List Token} {broken : Token} (soft : AreSoft back)
    (breaks : broken.kind = .lineBreak)
    (hard : marker.kind ≠ .padding) (known : marker.kind ≠ .other)
    (unbroken : marker.kind ≠ .lineBreak)
    (split : back ++ broken :: more = lead ++ marker :: before) :
    ∃ next, lead = back ++ broken :: next ∧ more = next ++ marker :: before := by
  rcases behind_or_within split with ⟨others, rfl, rest⟩ | ⟨more, rfl, -⟩
  · cases others with
    | nil =>
        obtain ⟨rfl, -⟩ := List.cons.inj rest
        exact absurd breaks unbroken
    | cons first next =>
        obtain ⟨rfl, same⟩ := List.cons.inj rest
        exact ⟨next, rfl, same⟩
  · exact ((soft marker (List.mem_append_right _ List.mem_cons_self)).1.elim hard known).elim

/-- Behind blanks and line breaks a token comes first on the one line. -/
theorem Flattened.exists_following {lead : List Token} (flattened : Flattened lost whole kept)
    (split : whole = lead ++ marker :: before) (blank : ∀ c ∈ runningText lead, isBlank c = true)
    (hard : marker.kind ≠ .padding) (known : marker.kind ≠ .other)
    (unbroken : marker.kind ≠ .lineBreak) :
    ∃ behind, kept = marker :: behind ∧ Following lost before behind := by
  induction flattened generalizing lead with
  | @last stray front core cut isCore =>
      rcases behind_or_within split with ⟨middle, rfl, rfl⟩ | ⟨more, rfl, -⟩
      · rw [runningText_append] at blank
        obtain ⟨blank, blank'⟩ := List.forall_mem_append.mp blank
        rw [runningText_of_inLine cut.inLine] at blank
        rw [runningText_of_inLine fun token mem =>
          isCore.inLine token (List.mem_append_left _ mem)] at blank'
        rw [isCore.eq_nil blank', cut.eq_false blank]
        exact ⟨before, rfl, .last before⟩
      · exact absurd (List.mem_append_right _ List.mem_cons_self) (cut.not_mem hard known)
  | @line stray lost front core back found kept broken cut isCore ends soft breaks later ih =>
      -- The token stands on this line, behind the blanks at its beginning, or this line is blank.
      rcases behind_or_within split with ⟨middle, rfl, rest⟩ | ⟨more, rfl, -⟩
      · rw [runningText_append] at blank
        obtain ⟨blank, blank'⟩ := List.forall_mem_append.mp blank
        rw [runningText_of_inLine cut.inLine] at blank
        rw [cut.eq_false blank, Bool.false_or]
        rcases behind_or_within rest with ⟨others, rfl, rest'⟩ | ⟨more, rfl, rfl⟩
        · obtain ⟨next, rfl, same⟩ := exists_behind_end soft breaks hard known unbroken rest'
          rw [runningText_append, runningText_append, runningText_of_lineBreak breaks,
            runningText_of_inLine isCore.inLine] at blank'
          obtain ⟨within, behind⟩ := List.forall_mem_append.mp blank'
          have isCore' : IsCore (core ++ []) := by rwa [List.append_nil]
          obtain ⟨near, rfl, following⟩ :=
            ih same (List.forall_mem_cons.mp (List.forall_mem_append.mp behind).2).2
          rw [isCore'.eq_nil within]
          exact ⟨near, rfl, following⟩
        · rw [runningText_of_inLine fun token mem =>
            isCore.inLine token (List.mem_append_left _ mem)] at blank'
          rw [isCore.eq_nil blank', List.nil_append] at ends ⊢
          refine ⟨more ++ ⟨.padding, [' ']⟩ :: kept, rfl,
            .line (fun c last => ends c ?_) soft breaks later⟩
          rw [textOf_cons, List.getLast?_append, last]
          rfl
      · exact absurd (List.mem_append_right _ List.mem_cons_self) (cut.not_mem hard known)

theorem eq_nil_of_textOf (pieces : ∀ token ∈ tokens, token.IsPiece) (none : textOf tokens = []) :
    tokens = [] := by
  cases tokens with
  | nil => rfl
  | cons first tokens =>
      obtain ⟨c, rest, length, -, written⟩ := pieces first List.mem_cons_self
      rw [textOf_cons, written] at none
      cases none

/-- Behind the blanks and line breaks at its beginning a line and the next ones
follow a further token. -/
theorem Following.exists_following {lead behind : List Token}
    (following : Following lost whole behind)
    (inLine : ∀ token ∈ behind, isInLine token.kind = true)
    (pieces : ∀ token ∈ behind, token.IsPiece)
    (split : whole = lead ++ marker :: before) (blank : ∀ c ∈ runningText lead, isBlank c = true)
    (leads : ArePadding lead ∨ ∃ token ∈ lead, token.kind = .lineBreak)
    (hard : marker.kind ≠ .padding) (known : marker.kind ≠ .other)
    (unbroken : marker.kind ≠ .lineBreak) :
    ∃ pads near, behind = pads ++ marker :: near ∧ ArePadding pads ∧
      Following lost before near := by
  have padded (within : lead ⊆ behind) : ArePadding lead := by
    refine leads.resolve_right fun ⟨token, mem, breaks⟩ => ?_
    have inside := inLine token (within mem)
    rw [breaks] at inside
    cases inside
  cases following with
  | last =>
      rw [split] at padded
      exact ⟨lead, before, split, padded (List.subset_append_left _ _), .last before⟩
  | @line _ core back found kept broken ends soft breaks later =>
      rcases behind_or_within split with ⟨middle, rfl, rest⟩ | ⟨more, rfl, rfl⟩
      · obtain ⟨next, rfl, same⟩ := exists_behind_end soft breaks hard known unbroken rest
        rw [runningText_append, runningText_append, runningText_of_lineBreak breaks,
          runningText_of_inLine fun token mem => inLine token (List.mem_append_left _ mem)] at blank
        obtain ⟨blank, blank'⟩ := List.forall_mem_append.mp blank
        have empty : textOf core = [] :=
          List.getLast?_eq_none_iff.mp <| Option.eq_none_iff_forall_ne_some.mpr
          fun c final =>
          Bool.false_ne_true ((ends c final).symm.trans (blank c (List.mem_of_getLast? final)))
        have none :=
          eq_nil_of_textOf (fun token mem => pieces token (List.mem_append_left _ mem)) empty
        obtain ⟨near, rfl, following⟩ := later.exists_following same
          (List.forall_mem_cons.mp (List.forall_mem_append.mp blank').2).2 hard known unbroken
        have spaced : ArePadding [⟨.padding, [' ']⟩] :=
          List.forall_mem_singleton.mpr ⟨rfl, List.forall_mem_singleton.mpr rfl⟩
        rw [none]
        exact ⟨[⟨.padding, [' ']⟩], near, rfl, spaced, following⟩
      · refine ⟨lead, more ++ ⟨.padding, [' ']⟩ :: kept, ?_, padded ?_,
          .line (fun c last => ends c ?_) soft breaks later⟩
        · simp only [List.append_assoc, List.cons_append]
        · exact List.subset_append_of_subset_left _ (List.subset_append_left _ _)
        · rw [textOf_append, textOf_cons, List.getLast?_append, List.getLast?_append, last]
          rfl

end Token

end DocComment
