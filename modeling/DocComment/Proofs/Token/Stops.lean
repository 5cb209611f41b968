import DocComment.Proofs.Token.Sole

/-!
# What stops a piece

A piece ends where it does whatever stands behind it, as long as that neither
goes on with the piece nor changes its kind.  What a piece looks at there is
collected in `Stops`: it is enough for the piece to be cut as it is by itself
(`piece_append`), and it holds of every piece that ends in time
(`stops_of_le`).
-/

namespace DocComment

/-- The text goes on with no word, number, ellipsis or marker in front of it. -/
structure Text.Parted (text : Text) : Prop where
  word : text.EndsWord
  slash : text.head? ≠ some '/'

namespace Token

/-- No padding, no line end and no star goes on with a word or opens a marker. -/
theorem parted_of_head? {text : Text}
    (begins : ∀ c, text.head? = some c → isPadding c = true ∨ c = '\n' ∨ c = '\r' ∨ c = '*') :
    text.Parted where
  word c head := by
    rcases begins c head with pads | rfl | rfl | rfl
    · rw [isPadding, Bool.or_eq_true, beq_iff_eq, beq_iff_eq] at pads
      rcases pads with rfl | rfl
      · decide
      · decide
    · decide
    · decide
    · decide
  slash head := by
    rcases begins _ head with pads | same | same | same
    · cases pads
    · cases same
    · cases same
    · cases same

/-! ## What stops a piece -/

/-- The text behind a piece that reaches up to it neither goes on with the piece
nor changes its kind. -/
structure Stops (c : Char) (front rest : Text) : Prop where
  indented : ∀ more, c :: front = '\n' :: more ∨ c :: front = '\r' :: '\n' :: more →
    (∀ d ∈ more, isPadding d = true) → decorationLength rest = 0
  padded : isPadding c = true → (∀ d ∈ front, isPadding d = true) → runLength isPadding rest = 0
  carriage : c = '\r' → front = [] → rest.head? ≠ some '\n'
  slash : c = '/' → front = [] ∨ front = ['*'] → rest.head? ≠ some '*'
  quote : c = '"' ∨ c = '\'' → quotedLength c front = (false, front.length) →
    rest = [] ∨ rest.head? = some '\n'

theorem decorationLength_cons (c : Char) (rest : Text) :
    decorationLength (c :: rest) =
      if isPadding c = true then decorationLength rest + 1
      else if c = '*' ∧ rest.head? ≠ some '/' then 1 else 0 := by
  split
  next pads =>
    have length : runLength isPadding (c :: rest) = runLength isPadding rest + 1 := by
      rw [runLength, List.takeWhile_cons_of_pos pads]
      rfl
    unfold decorationLength
    dsimp only
    rw [length, List.drop_succ_cons]
    split <;> rfl
  next pads =>
    have length : runLength isPadding (c :: rest) = 0 := by
      rw [runLength, List.takeWhile_cons_of_neg pads]
      rfl
    unfold decorationLength
    dsimp only
    rw [length, List.drop_zero]
    split
    next stands =>
      cases stands
      exact (if_neg fun both => both.2 rfl).symm
    next more slash stands =>
      cases stands
      refine (if_pos ⟨rfl, fun same => ?_⟩).symm
      obtain ⟨behind, rfl⟩ := List.head?_eq_some_iff.mp same
      exact slash behind rfl
    next star => exact (if_neg fun both => star rest (by rw [both.1])).symm

theorem decorationLength_append {front rest : Text} (slash : rest.head? ≠ some '/')
    (stops : (∀ d ∈ front, isPadding d = true) → decorationLength rest = 0) :
    decorationLength (front ++ rest) = decorationLength front := by
  induction front with
  | nil => exact stops fun d mem => nomatch mem
  | cons d front ih =>
      rw [List.cons_append, decorationLength_cons, decorationLength_cons]
      split
      next pads =>
        rw [ih fun all => stops (List.forall_mem_cons.mpr ⟨pads, all⟩)]
      next =>
        cases front with
        | nil => simp [slash]
        | cons e front => rfl

theorem decorationLength_append_of_padding {front : Text} (pads : ∀ d ∈ front, isPadding d = true)
    (rest : Text) : decorationLength (front ++ rest) = front.length + decorationLength rest := by
  induction front with
  | nil => rw [List.nil_append, List.length_nil, Nat.zero_add]
  | cons d front ih =>
      obtain ⟨one, others⟩ := List.forall_mem_cons.mp pads
      rw [List.cons_append, decorationLength_cons, if_pos one, ih others, List.length_cons,
        Nat.add_right_comm]

theorem quotedLength_append_eq {quote : Char} {front rest : Text}
    (stops : quotedLength quote front = (false, front.length) → rest = [] ∨
      rest.head? = some '\n') :
    quotedLength quote (front ++ rest) = quotedLength quote front := by
  have feed (more : Text) : quotedLength quote ('\n' :: more) = (false, 0) := by
    cases more <;> rfl
  fun_induction quotedLength quote front with
  | case1 =>
      rcases stops rfl with rfl | head
      · rfl
      · obtain ⟨more, rfl⟩ := List.head?_eq_some_iff.mp head
        exact feed more
  | case2 => cases rest <;> rfl
  | case3 c other =>
      cases rest with
      | nil => exact if_neg other
      | cons d rest =>
          rw [List.singleton_append, quotedLength, if_neg other]
          by_cases same : c = quote
          · rw [if_pos same, same, beq_self_eq_true]
          · rw [if_neg same, beq_eq_false_iff_ne.mpr same]
            have broken : d = '\n' := by
              simpa using stops (by rw [beq_eq_false_iff_ne.mpr same]; rfl)
            subst broken
            rw [feed, if_pos rfl]
            split <;> rfl
  | case4 => rfl
  | case5 d more other =>
    rw [List.cons_append, List.cons_append, quotedLength, if_neg other, if_pos rfl]
  | case6 more other plain =>
      rw [List.cons_append, List.cons_append, quotedLength, if_neg other, if_neg plain, if_pos rfl,
        if_pos rfl]
  | case7 d more unbroken found count cut other plain ih =>
      rw [List.cons_append, List.cons_append, quotedLength, if_neg other, if_neg plain, if_pos rfl,
        if_neg unbroken, ih fun whole => stops ?_, cut]
      rw [cut] at whole
      cases whole
      rfl
  | case8 c d more other plain dark found count cut ih =>
      rw [List.cons_append, List.cons_append, quotedLength, if_neg other, if_neg plain, if_neg dark,
        ← List.cons_append, ih fun whole => stops ?_, cut]
      rw [cut] at whole
      cases whole
      rfl

theorem markedPiece_append {p : Char → Bool} {rest : Text} (kind : Kind) (ends : rest.EndsWord)
    (stops : ∀ c, rest.head? = some c → p c = false) (front : Text) :
    markedPiece kind p (front ++ rest) = markedPiece kind p front := by
  cases front with
  | nil =>
      cases rest with
      | nil => rfl
      | cons c rest =>
          exact if_neg
            (by rw [isNameStart_eq_false_of_endsWord ends c rfl]; exact Bool.false_ne_true)
  | cons c more => rw [List.cons_append, markedPiece, markedPiece, runLength_append_of_stops stops]

/-! ## Pieces in front of a seam -/

section Append

variable {c : Char} {front rest : Text}

theorem piece_feed_append (stops : Stops '\n' front rest) (parted : rest.Parted) :
    piece '\n' (front ++ rest) = piece '\n' front :=
  congrArg (Prod.mk Kind.lineBreak)
    (decorationLength_append parted.slash (stops.indented front (Or.inl rfl)))

theorem piece_carriage_append (stops : Stops '\r' front rest) (parted : rest.Parted) :
    piece '\r' (front ++ rest) = piece '\r' front := by
  cases front with
  | nil =>
      have other := stops.carriage rfl rfl
      cases rest with
      | nil => rfl
      | cons d rest =>
          have unbroken : d ≠ '\n' := fun same => other (congrArg some same)
          simp [piece, unbroken]
  | cons d more =>
      by_cases broken : d = '\n'
      · subst broken
        have same := decorationLength_append parted.slash (stops.indented more (Or.inr rfl))
        exact congrArg (fun length => (Kind.lineBreak, length + 1)) same
      · simp [piece, broken]

theorem piece_slash_append (stops : Stops '/' front rest) :
    piece '/' (front ++ rest) = piece '/' front := by
  match front with
  | [] =>
      have other := stops.slash rfl (Or.inl rfl)
      cases rest with
      | nil => rfl
      | cons d rest =>
          have unstarred : d ≠ '*' := fun same => other (congrArg some same)
          simp [piece, unstarred, isPadding]
  | [d] =>
      by_cases star : d = '*'
      · subst star
        have other := stops.slash rfl (Or.inr rfl)
        cases rest with
        | nil => rfl
        | cons d rest =>
            have unstarred : d ≠ '*' := fun same => other (congrArg some same)
            simp [piece, unstarred, isPadding]
      · simp [piece, star, isPadding]
  | d :: e :: more =>
      by_cases star : d = '*' <;> by_cases again : e = '*' <;> simp [piece, star, again, isPadding]

/-- A star that closes no comment is a piece by itself. -/
theorem piece_star (open? : rest.head? ≠ some '/') : piece '*' rest = (.other, 0) := by
  cases rest with
  | nil => rfl
  | cons d more =>
      have slash : d ≠ '/' := fun same => open? (congrArg some same)
      simp [piece, slash, isPadding]

theorem piece_star_append (parted : rest.Parted) : piece '*' (front ++ rest) = piece '*' front := by
  cases front with
  | nil =>
      cases rest with
      | nil => rfl
      | cons d rest =>
          have other : d ≠ '/' := fun same => parted.slash (congrArg some same)
          simp [piece, other, isPadding]
  | cons d more => by_cases slash : d = '/' <;> simp [piece, slash, isPadding]

theorem piece_dot_append (parted : rest.Parted) : piece '.' (front ++ rest) = piece '.' front := by
  match front with
  | [] =>
      cases rest with
      | nil => rfl
      | cons d rest => simp [piece, (parted.word d rfl).2.2, isPadding, isNameStart]
  | [d] =>
      by_cases dot : d = '.'
      · cases rest with
        | nil => rfl
        | cons e rest => simp [piece, dot, (parted.word e rfl).2.2, isPadding, isNameStart]
      · simp [piece, dot, isPadding, isNameStart]
  | d :: e :: more =>
      by_cases dot : d = '.' <;> by_cases again : e = '.' <;>
        simp [piece, dot, again, isPadding, isNameStart]

theorem piece_backslash_append (parted : rest.Parted) :
    piece '\\' (front ++ rest) = piece '\\' front := by
  cases front with
  | nil =>
      cases rest with
      | nil => rfl
      | cons d rest =>
          simp [piece, isPadding, isNameStart_eq_false_of_endsWord parted.word d rfl]
  | cons d more => simp [piece, isPadding, segmentsLength_append parted.word]

theorem piece_minus_append (parted : rest.Parted) :
    piece '-' (front ++ rest) = piece '-' front := by
  cases front with
  | nil =>
      cases rest with
      | nil => rfl
      | cons d rest =>
          simp [piece, isPadding, isNameStart, not_isDigit_of_endsWord parted.word d rfl]
  | cons d more => simp [piece, isPadding, isNameStart, numberLength_append parted.word]

theorem piece_append (stops : Stops c front rest) (parted : rest.Parted) :
    piece c (front ++ rest) = piece c front := by
  rcases Decidable.em (c = '\n') with rfl | feed
  · exact piece_feed_append stops parted
  rcases Decidable.em (c = '\r') with rfl | carriage
  · exact piece_carriage_append stops parted
  rcases Decidable.em (c = '/') with rfl | slash
  · exact piece_slash_append stops
  rcases Decidable.em (c = '*') with rfl | star
  · exact piece_star_append parted
  rcases Decidable.em (c = '\\') with rfl | backslash
  · exact piece_backslash_append parted
  rcases Decidable.em (c = '-') with rfl | minus
  · exact piece_minus_append parted
  rcases Decidable.em (c = '.') with rfl | dot
  · exact piece_dot_append parted
  have names (d : Char) (head : rest.head? = some d) : isNameChar d = false :=
    (parted.word d head).1
  have follows (d : Char) (head : rest.head? = some d) : isVariableChar d = false := by
    have dark := names d head
    rw [isNameChar, Bool.or_eq_false_iff] at dark
    exact dark.1
  unfold piece
  simp only [if_neg feed, if_neg carriage, if_neg slash, if_neg star, if_neg backslash,
    if_neg minus, if_neg dot]
  rw [markedPiece_append _ parted.word names, markedPiece_append _ parted.word follows,
    segmentsLength_append parted.word, numberLength_append parted.word]
  split
  next pads => rw [runLength_append_eq (stops.padded pads)]
  next =>
    by_cases quote : c = '"' ∨ c = '\''
    · rw [quotedLength_append_eq (stops.quote quote)]
    · have quote? : ¬ (decide (c = '"') || decide (c = '\'')) = true := by simpa using quote
      simp only [quote?, Bool.false_eq_true, if_false]

end Append

/-! ## Seams in place -/

theorem quotedLength_eq_zero {quote : Char} {text : Text} (zero : (quotedLength quote text).2 = 0) :
    text = [] ∨ text.head? = some '\n' := by
  fun_cases quotedLength quote text with
  | case1 => exact Or.inl rfl
  | case2 | case4 => exact Or.inr rfl
  | case3 c other =>
      rw [quotedLength, if_neg other] at zero
      cases zero
  | case5 d more other =>
      rw [quotedLength, if_neg other, if_pos rfl] at zero
      cases zero
  | case6 more other plain =>
      rw [quotedLength, if_neg other, if_neg plain, if_pos rfl, if_pos rfl] at zero
      cases zero
  | case7 d more unbroken found count cut other plain =>
      rw [quotedLength, if_neg other, if_neg plain, if_pos rfl, if_neg unbroken] at zero
      cases zero
  | case8 c d more other plain dark found count cut =>
      rw [quotedLength, if_neg other, if_neg plain, if_neg dark] at zero
      cases zero

/-- A quote that is open up to the seam goes on behind it, unless the line ends there. -/
theorem quotedLength_of_le {quote : Char} {front rest : Text}
    (within : (quotedLength quote (front ++ rest)).2 ≤ front.length)
    (whole : quotedLength quote front = (false, front.length)) :
    rest = [] ∨ rest.head? = some '\n' := by
  fun_induction quotedLength quote front with
  | case1 => exact quotedLength_eq_zero (Nat.le_zero.mp within)
  | case2 | case4 | case5 | case6 => cases whole
  | case3 c other =>
      cases rest with
      | nil => exact Or.inl rfl
      | cons d rest =>
          have open? : c ≠ quote := beq_eq_false_iff_ne.mp (congrArg Prod.fst whole)
          rw [List.singleton_append, quotedLength, if_neg other, if_neg open?] at within
          split at within
          next =>
            split at within
            next broken => exact Or.inr (congrArg some broken)
            next => exact absurd within (by simp)
          next => exact quotedLength_eq_zero (Nat.le_zero.mp (Nat.le_of_succ_le_succ within))
  | case7 d more unbroken found count cut other plain ih =>
      rw [List.cons_append, List.cons_append, quotedLength, if_neg other, if_neg plain, if_pos rfl,
        if_neg unbroken] at within
      refine ih (Nat.le_of_succ_le_succ (Nat.le_of_succ_le_succ within)) ?_
      rw [cut]
      cases whole
      rfl
  | case8 c d more other plain dark found count cut ih =>
      rw [List.cons_append, List.cons_append, quotedLength, if_neg other, if_neg plain,
        if_neg dark] at within
      refine ih (Nat.le_of_succ_le_succ within) ?_
      rw [cut]
      cases whole
      rfl

/-- What follows a piece that ends in time stops it. -/
theorem stops_of_le {c : Char} {front rest : Text}
    (within : (piece c (front ++ rest)).2 ≤ front.length) :
    Stops c front rest where
  indented more stands pads := by
    have length := decorationLength_append_of_padding pads rest
    rcases stands with stands | stands
    · cases stands
      change decorationLength (front ++ rest) ≤ front.length at within
      omega
    · cases stands
      change decorationLength (more ++ rest) + 1 ≤ more.length + 1 at within
      omega
  padded pads all := by
    rw [piece_padding pads, runLength, List.takeWhile_append_of_pos all,
      List.length_append] at within
    change front.length + runLength isPadding rest ≤ front.length at within
    omega
  carriage here empty broken := by
    subst here empty
    obtain ⟨more, rfl⟩ := List.head?_eq_some_iff.mp broken
    cases within
  slash here few star := by
    subst here
    obtain ⟨more, rfl⟩ := List.head?_eq_some_iff.mp star
    rcases few with rfl | rfl
    · cases more with
      | nil => cases within
      | cons d more =>
          by_cases again : d = '*' <;> simp [piece, isPadding, again] at within
    · exact absurd within (by simp [piece, isPadding])
  quote here whole := by
    refine quotedLength_of_le ?_ whole
    rcases here with rfl | rfl
    · exact within
    · exact within

end Token

end DocComment
