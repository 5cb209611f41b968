import DocComment.Proofs.Token.Forward
import DocComment.Proofs.Token.Hiding

/-!
# Texts that are one token

A text that is scanned as one token stays one token when something follows
that cannot go on with it (`scan_append_of_isSole`).
-/

namespace DocComment

/-- The text goes on with no name, tag, variable or number in front of it. -/
def Text.EndsWord (text : Text) : Prop :=
  ∀ c, text.head? = some c → Token.isNameChar c = false ∧ c ≠ '\\' ∧ c ≠ '.'

namespace Token

/-- Whether a text is scanned as one token of a kind. -/
def isSole (kind : Kind) (text : Text) : Bool :=
  scan text == [⟨kind, text⟩]

/-! ## Cuts are what the scanner takes -/

theorem isPadding_eq_false {c : Char} {p : Char → Bool} (space : p ' ' = false)
    (tab : p '\t' = false) (inside : p c = true) : isPadding c = false := by
  cases pads : isPadding c with
  | false => rfl
  | true =>
      rw [isPadding, Bool.or_eq_true, beq_iff_eq, beq_iff_eq] at pads
      rcases pads with rfl | rfl
      · rw [space] at inside
        cases inside
      · rw [tab] at inside
        cases inside

theorem piece_name {c : Char} (starts : isNameStart c = true) (rest : Text) :
    piece c rest = (.name, segmentsLength rest) := by
  have other {d : Char} (outside : isNameStart d = false) : c ≠ d := ne_of_class outside starts
  have dark : isPadding c = false :=
    isPadding_eq_false (p := isNameStart) (by decide) (by decide) starts
  unfold piece
  rw [if_neg (other (by decide)), if_neg (other (by decide)), dark, if_neg Bool.false_ne_true,
    if_neg (other (by decide)), if_neg (other (by decide)), if_neg (other (by decide)),
    if_neg (other (by decide)), if_neg (other (by decide)), if_pos starts]

theorem isAlpha_eq (c : Char) : c.isAlpha = (c.isUpper || c.isLower) := rfl

theorem isUpper_iff {c : Char} : c.isUpper = true ↔ 65 ≤ c.toNat ∧ c.toNat ≤ 90 := by
  change decide (65 ≤ c.val ∧ c.val ≤ 90) = true ↔ _
  rw [decide_eq_true_eq, UInt32.le_iff_toNat_le, UInt32.le_iff_toNat_le]
  rfl

theorem isLower_iff {c : Char} : c.isLower = true ↔ 97 ≤ c.toNat ∧ c.toNat ≤ 122 := by
  change (decide (97 ≤ c.val) && decide (c.val ≤ 122)) = true ↔ _
  rw [Bool.and_eq_true, decide_eq_true_eq, decide_eq_true_eq, UInt32.le_iff_toNat_le,
    UInt32.le_iff_toNat_le]
  rfl

theorem isDigit_eq_false_of_isAlpha {c : Char} (letter : c.isAlpha = true) : c.isDigit = false := by
  rw [isAlpha_eq, Bool.or_eq_true, isUpper_iff, isLower_iff] at letter
  rw [← Bool.not_eq_true]
  intro digit
  simp only [Char.isDigit, Bool.and_eq_true, decide_eq_true_eq, UInt32.le_iff_toNat_le,
    ge_iff_le] at digit
  change 48 ≤ c.toNat ∧ c.toNat ≤ 57 at digit
  omega

theorem isNameStart_eq_false_of_isDigit {c : Char} (digit : c.isDigit = true) :
    isNameStart c = false := by
  rw [isNameStart, Bool.or_eq_false_iff]
  constructor
  · cases letter : c.isAlpha with
    | false => rfl
    | true => rw [isDigit_eq_false_of_isAlpha letter] at digit; cases digit
  · rw [beq_eq_false_iff_ne]
    rintro rfl
    cases digit

theorem piece_number {c : Char} (digit : c.isDigit = true) (rest : Text) :
    piece c rest = (.number, numberLength rest) := by
  have other {d : Char} (outside : d.isDigit = false) : c ≠ d :=
    ne_of_class (p := Char.isDigit) outside digit
  have dark : isPadding c = false :=
    isPadding_eq_false (p := Char.isDigit) (by decide) (by decide) digit
  have quote : (c = '"' || c = '\'') = false := by
    rw [Bool.or_eq_false_iff, decide_eq_false_iff_not, decide_eq_false_iff_not]
    exact ⟨other (by decide), other (by decide)⟩
  unfold piece
  rw [if_neg (other (by decide)), if_neg (other (by decide)), dark, if_neg Bool.false_ne_true,
    if_neg (other (by decide)), if_neg (other (by decide)), if_neg (other (by decide)),
    if_neg (other (by decide)), if_neg (other (by decide)), isNameStart_eq_false_of_isDigit digit,
    if_neg Bool.false_ne_true, quote, if_neg Bool.false_ne_true, if_pos digit]

theorem piece_mark {c : Char} {kind : Kind} (marks : markKind? c = some kind) (rest : Text) :
    piece c rest = (kind, 0) := by
  unfold markKind? at marks
  split at marks <;> cases marks <;> rfl

theorem piece_quote {c : Char} (quote : c = '"' ∨ c = '\'') (rest : Text) :
    piece c rest =
      (if (quotedLength c rest).1 then .quoted else .other, (quotedLength c rest).2) := by
  rcases quote with rfl | rfl <;> rfl

theorem scan_mark {c : Char} {kind : Kind} (marks : markKind? c = some kind) (rest : Text) :
    scan (c :: rest) = ⟨kind, [c]⟩ :: scan rest := by
  have known : kind ≠ .other := by
    rintro rfl
    cases Kind.isMark_of_markKind? marks
  exact @scan_append c [] rest kind (piece_mark marks _) known

theorem endsWord_of_mark {c : Char} {kind : Kind} (marks : markKind? c = some kind) (rest : Text) :
    Text.EndsWord (c :: rest) := by
  rintro d ⟨⟩
  unfold markKind? at marks
  split at marks <;> first | cases marks; done | decide

theorem isPadding_of_mark {c : Char} {kind : Kind} (marks : markKind? c = some kind) :
    isPadding c = false := by
  unfold markKind? at marks
  split at marks <;> first | cases marks; done | decide

/-- A cut of a known kind is what the scanner takes. -/
theorem piece_of_cut {c : Char} {rest : Text} {kind : Kind} {length : Nat}
    (cut : Cut c rest kind length) (known : kind ≠ .other) : piece c rest = (kind, length) := by
  cases cut with
  | feed | carriage | opening | closing | ellipsis => rfl
  | padding _ pads => exact piece_padding pads rest
  | tag more starts =>
      change (if _ then _ else _) = _
      exact if_pos starts
  | varName more starts =>
      change (if _ then _ else _) = _
      exact if_pos starts
  | rooted more starts =>
      change (if _ then _ else _) = _
      exact if_pos starts
  | name _ starts => exact piece_name starts rest
  | quoted quote closed =>
      have cut : piece c rest = (if (quotedLength c rest).1 then .quoted else .other,
          (quotedLength c rest).2) := by
        rcases quote with rfl | rfl <;> rfl
      rw [cut, closed]
      rfl
  | number _ digit => exact piece_number digit rest
  | negative more digit =>
      change (if _ then _ else _) = _
      exact if_pos digit
  | mark _ marks => exact piece_mark marks rest
  | other => exact absurd rfl known

/-! ## Lengths with something behind -/

theorem segmentsLength_of_endsWord {rest : Text} (ends : rest.EndsWord) :
    segmentsLength rest = 0 := by
  cases rest with
  | nil => rfl
  | cons c rest =>
      obtain ⟨dark, slash, _⟩ := ends c rfl
      cases rest with
      | nil => exact if_neg (by simp [dark])
      | cons d rest => rw [segmentsLength, if_neg (by simp [dark]), if_neg (by simp [slash])]

theorem isNameStart_eq_false_of_endsWord {rest : Text} (ends : rest.EndsWord) :
    ∀ c, rest.head? = some c → isNameStart c = false := by
  intro c head
  cases starts : isNameStart c with
  | false => rfl
  | true =>
      have inside := isNameChar_of_isNameStart starts
      rw [(ends c head).1] at inside
      cases inside

theorem segmentsLength_append {rest : Text} (ends : rest.EndsWord) (front : Text) :
    segmentsLength (front ++ rest) = segmentsLength front := by
  fun_induction segmentsLength front with
  | case1 => exact segmentsLength_of_endsWord ends
  | case2 c inside =>
      cases rest with
      | nil => exact if_pos inside
      | cons d rest =>
          rw [List.singleton_append, segmentsLength, if_pos inside, segmentsLength_of_endsWord ends]
  | case3 c outside =>
      cases rest with
      | nil => exact if_neg outside
      | cons d rest =>
          have starts : isNameStart d = false := isNameStart_eq_false_of_endsWord ends d rfl
          rw [List.singleton_append, segmentsLength, if_neg outside, if_neg (by simp [starts])]
  | case4 c d more inside ih =>
      rw [List.cons_append, List.cons_append, segmentsLength, if_pos inside, ← List.cons_append, ih]
  | case5 c d more outside parted ih =>
      rw [List.cons_append, List.cons_append, segmentsLength, if_neg outside, if_pos parted, ih]
  | case6 c d more outside whole =>
      rw [List.cons_append, List.cons_append, segmentsLength, if_neg outside, if_neg whole]

theorem quotedLength_append {quote : Char} {front : Text} {length : Nat}
    (closed : quotedLength quote front = (true, length)) (rest : Text) :
    quotedLength quote (front ++ rest) = (true, length) := by
  fun_induction quotedLength quote front generalizing length with
  | case1 => cases closed
  | case2 => cases closed
  | case3 c feed =>
      rw [Prod.mk.injEq, beq_iff_eq] at closed
      obtain ⟨rfl, rfl⟩ := closed
      cases rest with
      | nil => rw [List.append_nil, quotedLength, if_neg feed, beq_self_eq_true]
      | cons d rest => rw [List.singleton_append, quotedLength, if_neg feed, if_pos rfl]
  | case4 => cases closed
  | case5 d more feed =>
      cases closed
      rw [List.cons_append, List.cons_append, quotedLength, if_neg feed, if_pos rfl]
  | case6 => cases closed
  | case7 d more unbroken found count cut feed other ih =>
      cases closed
      rw [List.cons_append, List.cons_append, quotedLength, if_neg feed, if_neg other, if_pos rfl,
        if_neg unbroken, ih cut]
  | case8 c d more feed other plain found count cut ih =>
      cases closed
      rw [List.cons_append, List.cons_append, quotedLength, if_neg feed, if_neg other, if_neg plain,
        ← List.cons_append, ih cut]

theorem runLength_le (p : Char → Bool) (text : Text) : runLength p text ≤ text.length :=
  (List.takeWhile_prefix p).length_le

theorem not_isDigit_of_endsWord {rest : Text} (ends : rest.EndsWord) :
    ∀ c, rest.head? = some c → c.isDigit = false := by
  intro c head
  cases digit : c.isDigit with
  | false => rfl
  | true =>
      have dark := (ends c head).1
      rw [isNameChar, isVariableChar, Char.isAlphanum, digit, Bool.or_true, Bool.true_or,
        Bool.true_or] at dark
      cases dark

theorem runLength_append_eq {p : Char → Bool} {front rest : Text}
    (stops : (∀ d ∈ front, p d = true) → runLength p rest = 0) :
    runLength p (front ++ rest) = runLength p front := by
  induction front with
  | nil => exact stops fun d mem => nomatch mem
  | cons d front ih =>
      rw [runLength, runLength, List.cons_append, List.takeWhile_cons, List.takeWhile_cons]
      split
      next inside =>
        refine congrArg Nat.succ (ih fun all => stops fun e mem => ?_)
        rcases List.mem_cons.mp mem with rfl | later
        · exact inside
        · exact all e later
      next => rfl

theorem runLength_append_of_stops {p : Char → Bool} {rest : Text}
    (stops : ∀ c, rest.head? = some c → p c = false) (front : Text) :
    runLength p (front ++ rest) = runLength p front := by
  refine runLength_append_eq fun _ => ?_
  cases rest with
  | nil => rfl
  | cons c rest =>
      rw [runLength, List.takeWhile_cons_of_neg (by simp [stops c rfl])]
      rfl

theorem numberLength_append {rest : Text} (ends : rest.EndsWord) (front : Text) :
    numberLength (front ++ rest) = numberLength front := by
  have stops := not_isDigit_of_endsWord ends
  unfold numberLength
  dsimp only
  rw [runLength_append_of_stops stops,
    List.drop_append_of_le_length (runLength_le Char.isDigit front)]
  cases front.drop (runLength Char.isDigit front) with
  | nil =>
      rw [List.nil_append]
      split
      next => exact absurd rfl (ends '.' rfl).2.2
      next => rfl
  | cons c more =>
      by_cases dot : c = '.'
      · subst dot
        rw [List.cons_append]
        simp only []
        rw [runLength_append_of_stops stops]
      · rw [List.cons_append]
        split
        next head => exact absurd (List.cons.inj head).1 dot
        next =>
          split
          next head => exact absurd (List.cons.inj head).1 dot
          next => rfl

theorem segmentsLength_le (text : Text) : segmentsLength text ≤ text.length := by
  fun_induction segmentsLength text with
  | case1 => exact Nat.le_refl _
  | case2 | case3 => simp
  | case4 c d rest inside ih => exact Nat.succ_le_succ ih
  | case5 c d rest outside parted ih => exact Nat.succ_le_succ (Nat.succ_le_succ ih)
  | case6 => exact Nat.zero_le _

theorem quotedLength_le (quote : Char) (text : Text) :
    (quotedLength quote text).2 ≤ text.length := by
  fun_induction quotedLength quote text with
  | case1 | case2 | case3 | case4 | case5 | case6 => simp
  | case7 d rest _ found more cut _ _ ih =>
      rw [cut] at ih
      exact Nat.succ_le_succ (Nat.succ_le_succ ih)
  | case8 c d rest _ _ _ found more cut ih =>
      rw [cut] at ih
      exact Nat.succ_le_succ ih

theorem numberLength_le (text : Text) : numberLength text ≤ text.length := by
  have short := runLength_le Char.isDigit text
  unfold numberLength
  dsimp only
  split
  next fraction stands =>
    have behind := congrArg List.length stands
    rw [List.length_drop, List.length_cons] at behind
    have more := runLength_le Char.isDigit fraction
    split
    next => exact short
    next => omega
  next => exact short

theorem decorationLength_le (text : Text) : decorationLength text ≤ text.length := by
  have short := runLength_le isPadding text
  unfold decorationLength
  dsimp only
  split
  next => exact short
  next more _ stands =>
    have behind := congrArg List.length stands
    rw [List.length_drop, List.length_cons] at behind
    omega
  next => exact short

theorem markedPiece_le (kind : Kind) (p : Char → Bool) (text : Text) :
    (markedPiece kind p text).2 ≤ text.length := by
  cases text with
  | nil => exact Nat.le_refl _
  | cons c rest =>
      rw [markedPiece]
      split
      next => exact Nat.succ_le_succ (runLength_le p rest)
      next => exact Nat.zero_le _

/-- A piece lies within the text. -/
theorem piece_le (c : Char) (rest : Text) : (piece c rest).2 ≤ rest.length := by
  fun_cases piece c rest with
  | case1 => exact decorationLength_le rest
  | case2 _ _ more => exact Nat.succ_le_succ (decorationLength_le more)
  | case4 => exact runLength_le isPadding rest
  | case10 => exact markedPiece_le .tag isNameChar rest
  | case11 => exact markedPiece_le .varName isVariableChar rest
  | case12 _ _ _ _ _ _ _ _ _ more => exact Nat.succ_le_succ (segmentsLength_le more)
  | case15 => exact segmentsLength_le rest
  | case16 rest _ _ _ _ _ _ _ _ _ _ closed length found =>
      have within := quotedLength_le c rest
      rw [found] at within
      exact within
  | case17 => exact numberLength_le rest
  | case18 _ _ _ _ _ _ _ _ _ _ _ _ _ more => exact Nat.succ_le_succ (numberLength_le more)
  | _ => simp

/-- The tokens that are words, quotes or numbers. -/
def Kind.isWord (kind : Kind) : Bool :=
  kind.isPiece || kind == .tag

/-- A cut that takes everything takes the same when what follows cannot go on with it. -/
theorem Cut.append {c : Char} {front rest : Text} {kind : Kind} {length : Nat}
    (cut : Cut c front kind length) (whole : length = front.length) (word : kind.isWord = true)
    (ends : rest.EndsWord) : Cut c (front ++ rest) kind length := by
  have names : ∀ c, rest.head? = some c → isNameChar c = false := fun c head => (ends c head).1
  have follows : ∀ c, rest.head? = some c → isVariableChar c = false := fun c head => by
    have dark := names c head
    rw [isNameChar, Bool.or_eq_false_iff] at dark
    exact dark.1
  cases cut with
  | feed | carriage | padding | opening | closing | ellipsis | other => cases word
  | tag more starts =>
      have same := (runLength_append_of_stops names more).trans (Nat.succ.inj whole)
      rw [whole, List.length_cons, ← same]
      exact .tag (more ++ rest) starts
  | varName more starts =>
      have same := (runLength_append_of_stops follows more).trans (Nat.succ.inj whole)
      rw [whole, List.length_cons, ← same]
      exact .varName (more ++ rest) starts
  | rooted more starts =>
      have same := (segmentsLength_append ends more).trans (Nat.succ.inj whole)
      rw [whole, List.length_cons, ← same]
      exact .rooted (more ++ rest) starts
  | name _ starts =>
      have same := (segmentsLength_append ends front).trans whole
      rw [whole, ← same]
      exact .name (front ++ rest) starts
  | quoted quote closed => exact .quoted quote (quotedLength_append closed rest)
  | number _ digit =>
      have same := (numberLength_append ends front).trans whole
      rw [whole, ← same]
      exact .number (front ++ rest) digit
  | negative more digit =>
      have same := (numberLength_append ends more).trans (Nat.succ.inj whole)
      rw [whole, List.length_cons, ← same]
      exact .negative (more ++ rest) digit
  | mark _ marks =>
      have marked := Kind.isMark_of_markKind? marks
      rw [Kind.isWord, Kind.isPiece_eq_false_of_isMark marked, Bool.false_or, beq_iff_eq] at word
      subst word
      cases marked

theorem length_le_of_cut {c : Char} {rest : Text} {kind : Kind} {length : Nat}
    (cut : Cut c rest kind length) (known : kind ≠ .other) : length ≤ rest.length := by
  have short := piece_le c rest
  rwa [piece_of_cut cut known] at short

/-! ## Sole tokens -/

theorem isSole_iff {kind : Kind} {text : Text} :
    isSole kind text = true ↔ scan text = [⟨kind, text⟩] :=
  beq_iff_eq

/-- A text is one word exactly when the scanner cuts all of it. -/
theorem exists_cut_of_isSole {kind : Kind} {text : Text} (sole : isSole kind text = true)
    (word : kind.isWord = true) :
    ∃ c front, text = c :: front ∧ Cut c front kind front.length := by
  rw [isSole_iff] at sole
  cases text with
  | nil => cases sole
  | cons c front =>
      have known : kind ≠ .other := by
        rintro rfl
        cases word
      have stands : (scan (c :: front))[0]? = some ⟨kind, c :: front⟩ := by rw [sole]; rfl
      obtain ⟨d, rest, length, cut, written, behind⟩ := cut_of_getElem? stands known
      rw [sole, List.drop_one, List.tail_cons, textOf_nil, eq_comm, List.drop_eq_nil_iff] at behind
      obtain ⟨rfl, taken⟩ := List.cons.inj written
      rw [List.take_of_length_le behind] at taken
      subst taken
      obtain rfl := Nat.le_antisymm (length_le_of_cut cut known) behind
      exact ⟨c, front, rfl, cut⟩

/-- What is one word by itself is one word in front of a text that does not go on with it. -/
theorem scan_append_of_isSole {kind : Kind} {text rest : Text} (sole : isSole kind text = true)
    (word : kind.isWord = true) (ends : rest.EndsWord) :
    scan (text ++ rest) = ⟨kind, text⟩ :: scan rest := by
  obtain ⟨c, front, rfl, cut⟩ := exists_cut_of_isSole sole word
  have known : kind ≠ .other := by
    rintro rfl
    cases word
  exact scan_append (piece_of_cut (cut.append rfl word ends) known) known

/-- The kind of a word is settled whatever stands behind it. -/
theorem kind_piece_append {c : Char} {front : Text} {kind : Kind} {length : Nat}
    (cut : Cut c front kind length) (word : kind.isWord = true) (rest : Text) :
    (piece c (front ++ rest)).1 = kind := by
  have known : kind ≠ .other := by
    rintro rfl
    cases word
  have settled {more : Nat} (cut : Cut c (front ++ rest) kind more) :
      (piece c (front ++ rest)).1 = kind := by rw [piece_of_cut cut known]
  cases cut with
  | feed | carriage | padding | opening | closing | ellipsis | other => cases word
  | tag more starts => exact settled (.tag (more ++ rest) starts)
  | varName more starts => exact settled (.varName (more ++ rest) starts)
  | rooted more starts => exact settled (.rooted (more ++ rest) starts)
  | name _ starts => exact settled (.name (front ++ rest) starts)
  | quoted quote closed => exact settled (.quoted quote (quotedLength_append closed rest))
  | number _ digit => exact settled (.number (front ++ rest) digit)
  | negative more digit => exact settled (.negative (more ++ rest) digit)
  | mark _ marks => exact settled (.mark (front ++ rest) marks)

/-- What the scanner cuts whole is one token. -/
theorem isSole_of_cut {c : Char} {front : Text} {kind : Kind} (cut : Cut c front kind front.length)
    (known : kind ≠ .other) : isSole kind (c :: front) = true := by
  have taken : piece c (front ++ []) = (kind, front.length) := by
    rw [List.append_nil]
    exact piece_of_cut cut known
  rw [isSole_iff]
  conv_lhs => rw [← List.append_nil front]
  exact scan_append taken known

/-! ## Pieces by themselves -/

theorem runLength_take (p : Char → Bool) (text : Text) :
    runLength p (text.take (runLength p text)) = runLength p text := by
  rw [take_runLength, runLength,
    List.takeWhile_eq_self_iff.mpr (List.all_eq_true.mp List.all_takeWhile)]
  rfl

theorem segmentsLength_cons {c : Char} (inside : isNameChar c = true) (rest : Text) :
    segmentsLength (c :: rest) = segmentsLength rest + 1 := by
  cases rest with
  | nil => exact if_pos inside
  | cons d rest => exact if_pos inside

theorem segmentsLength_take (text : Text) :
    segmentsLength (text.take (segmentsLength text)) = segmentsLength text := by
  fun_induction segmentsLength text with
  | case1 => rfl
  | case2 c inside => exact if_pos inside
  | case3 => rfl
  | case4 c d rest inside ih => rw [List.take_succ_cons, segmentsLength_cons inside, ih]
  | case5 c d rest outside parted ih =>
      rw [List.take_succ_cons, List.take_succ_cons, segmentsLength, if_neg outside,
        if_pos parted, ih]
  | case6 => rfl

theorem quotedLength_take {quote : Char} {text : Text} {length : Nat}
    (closed : quotedLength quote text = (true, length)) :
    quotedLength quote (text.take length) = (true, length) := by
  fun_induction quotedLength quote text generalizing length with
  | case1 => cases closed
  | case2 => cases closed
  | case3 c other =>
      rw [Prod.mk.injEq] at closed
      rw [← closed.2, List.take_succ_cons, List.take_zero, quotedLength, if_neg other, closed.1]
  | case4 => cases closed
  | case5 d rest other =>
      cases closed
      rw [List.take_succ_cons, List.take_zero, quotedLength, if_neg other, beq_self_eq_true]
  | case6 => cases closed
  | case7 d rest unbroken found more cut other plain ih =>
      cases closed
      rw [List.take_succ_cons, List.take_succ_cons, quotedLength, if_neg other, if_neg plain,
        if_pos rfl, if_neg unbroken, ih cut]
  | case8 c d rest other plain dark found more cut ih =>
      cases closed
      have later := ih cut
      cases more with
      | zero => cases later
      | succ more =>
          rw [List.take_succ_cons] at later
          rw [List.take_succ_cons, List.take_succ_cons, quotedLength, if_neg other, if_neg plain,
            if_neg dark, later]

/-- An integer by itself. -/
theorem numberLength_whole {digits : Text} (inside : ∀ d ∈ digits, d.isDigit = true) :
    numberLength digits = digits.length := by
  have whole : runLength Char.isDigit digits = digits.length := by
    rw [runLength, List.takeWhile_eq_self_iff.mpr inside]
  unfold numberLength
  dsimp only
  rw [whole, List.drop_length]

/-- A decimal fraction by itself. -/
theorem numberLength_decimal {digits fraction : Text} (inside : ∀ d ∈ digits, d.isDigit = true)
    (proper : fraction ≠ []) (behind : ∀ d ∈ fraction, d.isDigit = true) :
    numberLength (digits ++ '.' :: fraction) = digits.length + 1 + fraction.length := by
  have whole : runLength Char.isDigit (digits ++ '.' :: fraction) = digits.length :=
    runLength_append inside (by rintro c ⟨⟩; rfl)
  have more : runLength Char.isDigit fraction = fraction.length := by
    rw [runLength, List.takeWhile_eq_self_iff.mpr behind]
  unfold numberLength
  dsimp only
  rw [whole, List.drop_left]
  simp only [more]
  cases fraction with
  | nil => exact absurd rfl proper
  | cons c fraction => rfl

theorem numberLength_take (text : Text) :
    numberLength (text.take (numberLength text)) = numberLength text := by
  have inside := mem_take_runLength Char.isDigit text
  have short := runLength_le Char.isDigit text
  have length : (text.take (runLength Char.isDigit text)).length = runLength Char.isDigit text :=
    List.length_take_of_le short
  have integer := (numberLength_whole inside).trans length
  generalize found : numberLength text = number
  unfold numberLength at found
  dsimp only at found
  split at found
  next fraction stands =>
    cases counted : runLength Char.isDigit fraction with
    | zero =>
        rw [counted] at found
        exact found ▸ integer
    | succ count =>
      rw [counted] at found
      have found : runLength Char.isDigit text + 1 + (count + 1) = number := found
      have behind := mem_take_runLength Char.isDigit fraction
      have few : (fraction.take (runLength Char.isDigit fraction)).length =
          runLength Char.isDigit fraction :=
        List.length_take_of_le (runLength_le Char.isDigit fraction)
      have proper : fraction.take (runLength Char.isDigit fraction) ≠ [] := fun empty => by
        rw [empty, counted] at few
        cases few
      rw [← found, Nat.add_assoc, List.take_add, stands, Nat.add_comm 1, List.take_succ_cons,
        ← counted, numberLength_decimal inside proper behind, length, few]
      omega
  next => exact found ▸ integer

/-- What is cut is cut in the same way by itself. -/
theorem Cut.take {c : Char} {rest : Text} {kind : Kind} {length : Nat}
    (cut : Cut c rest kind length)
    (word : kind.isWord = true) : Cut c (rest.take length) kind (rest.take length).length := by
  have known : kind ≠ .other := by
    rintro rfl
    cases word
  rw [List.length_take_of_le (length_le_of_cut cut known)]
  cases cut with
  | feed | carriage | padding | opening | closing | ellipsis | other => cases word
  | tag more starts =>
      have whole := Cut.tag (more.take (runLength isNameChar more)) starts
      rwa [runLength_take] at whole
  | varName more starts =>
      have whole := Cut.varName (more.take (runLength isVariableChar more)) starts
      rwa [runLength_take] at whole
  | rooted more starts =>
      have whole := Cut.rooted (more.take (segmentsLength more)) starts
      rwa [segmentsLength_take] at whole
  | name rest starts =>
      have whole := Cut.name (rest.take (segmentsLength rest)) starts
      rwa [segmentsLength_take] at whole
  | quoted quote closed => exact .quoted quote (quotedLength_take closed)
  | number rest digit =>
      have whole := Cut.number (rest.take (numberLength rest)) digit
      rwa [numberLength_take] at whole
  | negative more digit =>
      have whole := Cut.negative (more.take (numberLength more)) digit
      rwa [numberLength_take] at whole
  | mark _ marks =>
      rw [Kind.isWord, Kind.isPiece_eq_false_of_isMark (Kind.isMark_of_markKind? marks),
        Bool.false_or, beq_iff_eq] at word
      subst word
      cases Kind.isMark_of_markKind? marks

/-- A word that was scanned in a text is one word by itself. -/
theorem isSole_of_isPiece {token : Token} (piece : token.IsPiece)
    (word : token.kind.isWord = true) :
    isSole token.kind token.text = true := by
  obtain ⟨c, rest, length, cut, written⟩ := piece.exists_cut rfl
  have known : token.kind ≠ .other := by
    intro same
    rw [same] at word
    cases word
  rw [written]
  exact isSole_of_cut (cut.take word) known

/-! ## Letters in any case -/

theorem toLower_eq_or (c : Char) :
    c.toLower = c ∨ c.isUpper = true ∧ c.toLower.isLower = true := by
  rw [isLower_iff, isUpper_iff]
  unfold Char.toLower
  split
  next upper =>
    rw [UInt32.le_iff_toNat_le, ge_iff_le, UInt32.le_iff_toNat_le] at upper
    change 65 ≤ c.toNat ∧ c.toNat ≤ 90 at upper
    refine Or.inr ⟨upper, ?_⟩
    change 97 ≤ (c.val + 32).toNat ∧ (c.val + 32).toNat ≤ 122
    rw [UInt32.toNat_add]
    change 97 ≤ (c.toNat + 32) % 2 ^ 32 ∧ (c.toNat + 32) % 2 ^ 32 ≤ 122
    omega
  next => exact Or.inl rfl

theorem isAlpha_toLower (c : Char) : c.toLower.isAlpha = c.isAlpha := by
  rcases toLower_eq_or c with same | ⟨upper, lower⟩
  · rw [same]
  · rw [isAlpha_eq, isAlpha_eq, upper, lower, Bool.or_true, Bool.true_or]

/-- Only letters change. -/
theorem toLower_eq_iff {c d : Char} (dark : d.isAlpha = false) : c.toLower = d ↔ c = d := by
  constructor
  · rintro rfl
    rw [isAlpha_toLower] at dark
    rcases toLower_eq_or c with same | ⟨upper, _⟩
    · exact same.symm
    · rw [isAlpha_eq, upper] at dark
      cases dark
  · rintro rfl
    rcases toLower_eq_or c with same | ⟨upper, _⟩
    · exact same
    · rw [isAlpha_eq, upper] at dark
      cases dark

theorem isNameStart_toLower (c : Char) : isNameStart c.toLower = isNameStart c := by
  rw [isNameStart, isNameStart, isAlpha_toLower, Bool.beq_eq_decide_eq, Bool.beq_eq_decide_eq]
  simp only [toLower_eq_iff (show ('_' : Char).isAlpha = false by decide)]

theorem isDigit_toLower (c : Char) : c.toLower.isDigit = c.isDigit := by
  rcases toLower_eq_or c with same | ⟨upper, lower⟩
  · rw [same]
  · have letter : c.isAlpha = true := by rw [isAlpha_eq, upper, Bool.true_or]
    have small : c.toLower.isAlpha = true := (isAlpha_toLower c).trans letter
    rw [isDigit_eq_false_of_isAlpha letter, isDigit_eq_false_of_isAlpha small]

theorem isNameChar_toLower (c : Char) : isNameChar c.toLower = isNameChar c := by
  rw [isNameChar, isNameChar, isVariableChar, isVariableChar, Char.isAlphanum, Char.isAlphanum,
    isAlpha_toLower, isDigit_toLower]
  simp only [Bool.beq_eq_decide_eq, toLower_eq_iff (show ('_' : Char).isAlpha = false by decide),
    toLower_eq_iff (show ('-' : Char).isAlpha = false by decide)]

theorem segmentsLength_lowerAscii (text : Text) :
    segmentsLength (Text.lowerAscii text) = segmentsLength text := by
  have slash (c : Char) : c.toLower = '\\' ↔ c = '\\' := toLower_eq_iff (by decide)
  unfold Text.lowerAscii
  fun_induction segmentsLength text with
  | case1 => rfl
  | case2 c inside => exact if_pos ((isNameChar_toLower c).trans inside)
  | case3 c outside => exact if_neg (by rwa [isNameChar_toLower])
  | case4 c d rest inside ih =>
      rw [List.map_cons, List.map_cons, segmentsLength, isNameChar_toLower, if_pos inside,
        ← List.map_cons, ih]
  | case5 c d rest outside parted ih =>
      rw [List.map_cons, List.map_cons, segmentsLength, isNameChar_toLower, isNameStart_toLower,
        decide_eq_decide.mpr (slash c), if_neg outside, if_pos parted, ih]
  | case6 c d rest outside whole =>
      rw [List.map_cons, List.map_cons, segmentsLength, isNameChar_toLower, isNameStart_toLower,
        decide_eq_decide.mpr (slash c), if_neg outside, if_neg whole]

/-! ## Names and tags in any case -/

/-- What a name is made of. -/
theorem isSole_name_iff {c : Char} {front : Text} :
    isSole .name (c :: front) = true ↔
      (isNameStart c = true ∧ segmentsLength front = front.length) ∨
        ∃ d more, c = '\\' ∧ front = d :: more ∧ isNameStart d = true ∧
          segmentsLength more = more.length := by
  constructor
  · intro sole
    obtain ⟨_, _, same, cut⟩ := exists_cut_of_isSole sole rfl
    cases same
    generalize whole : front.length = length at cut
    generalize named : Kind.name = kind at cut
    cases cut with
    | name _ starts => exact Or.inl ⟨starts, rfl⟩
    | rooted more starts => exact Or.inr ⟨_, more, rfl, rfl, starts, (Nat.succ.inj whole).symm⟩
    | mark _ marks =>
        subst named
        cases Kind.isMark_of_markKind? marks
    | _ => cases named
  · rintro (⟨starts, whole⟩ | ⟨d, more, rfl, rfl, starts, whole⟩)
    · exact isSole_of_cut (whole ▸ .name front starts) (by decide)
    · refine isSole_of_cut ?_ (by decide)
      rw [List.length_cons, ← whole]
      exact .rooted more starts

/-- What a tag name is made of. -/
theorem isSole_tag_iff {text : Text} :
    isSole .tag text = true ↔ ∃ d more, text = '@' :: d :: more ∧ isNameStart d = true ∧
      runLength isNameChar more = more.length := by
  constructor
  · intro sole
    obtain ⟨c, front, rfl, cut⟩ := exists_cut_of_isSole sole rfl
    generalize whole : front.length = length at cut
    generalize named : Kind.tag = kind at cut
    cases cut with
    | tag more starts => exact ⟨_, more, rfl, starts, (Nat.succ.inj whole).symm⟩
    | mark _ marks =>
        subst named
        cases Kind.isMark_of_markKind? marks
    | _ => cases named
  · rintro ⟨d, more, rfl, starts, whole⟩
    refine isSole_of_cut ?_ (by decide)
    rw [List.length_cons, ← whole]
    exact .tag more starts

theorem isSole_name_of_lowerAscii {text : Text}
    (sole : isSole .name (Text.lowerAscii text) = true) :
    isSole .name text = true := by
  cases text with
  | nil => exact sole
  | cons c front =>
      rw [Text.lowerAscii, List.map_cons, isSole_name_iff, isNameStart_toLower,
        List.length_map] at sole
      rw [isSole_name_iff]
      rcases sole with ⟨starts, whole⟩ | ⟨d, more, slash, written, starts, whole⟩
      · exact Or.inl ⟨starts, (segmentsLength_lowerAscii front).symm.trans whole⟩
      · cases front with
        | nil => cases written
        | cons e front =>
            cases written
            rw [isNameStart_toLower] at starts
            rw [List.length_map] at whole
            exact Or.inr ⟨e, front, (toLower_eq_iff (by decide)).mp slash, rfl, starts,
              (segmentsLength_lowerAscii front).symm.trans whole⟩

theorem isSole_tag_of_lowerAscii {text : Text} (sole : isSole .tag (Text.lowerAscii text) = true) :
    isSole .tag text = true := by
  obtain ⟨d, more, written, starts, whole⟩ := isSole_tag_iff.mp sole
  obtain ⟨at', rest, rfl, mark, written⟩ := List.map_eq_cons_iff.mp written
  obtain ⟨e, rest, rfl, rfl, rfl⟩ := List.map_eq_cons_iff.mp written
  obtain rfl := (toLower_eq_iff (by decide)).mp mark
  rw [isNameStart_toLower] at starts
  refine isSole_tag_iff.mpr ⟨e, rest, rfl, starts, ?_⟩
  rw [runLength, List.takeWhile_map, List.length_map, List.length_map] at whole
  rwa [runLength, ← (funext isNameChar_toLower : isNameChar ∘ Char.toLower = isNameChar)]

end Token

end DocComment
