import DocComment.Proofs.Token.Sole
import DocComment.Text.Quoted

/-!
# Values between quotes

What a value must be for its written form to be one quote that is read as the value.  Between
double quotes only a line feed is in the way (`not_closed_of_broken`).  Between single quotes
nothing is escaped, so a backslash may take up the mark behind the value, and a mark within it
ends the quote (`IsBare`, `isBare_of_closed`).
-/

namespace DocComment

namespace Token

variable {quote c d : Char}

/-! ## Where a quote is closed -/

theorem quotedLength_feed (rest : Text) : quotedLength quote ('\n' :: rest) = (false, 0) := by
  cases rest <;> rfl

theorem quotedLength_mark (unbroken : quote ≠ '\n') (rest : Text) :
    quotedLength quote (quote :: rest) = (true, 1) := by
  cases rest with
  | nil => rw [quotedLength, if_neg unbroken, beq_self_eq_true]
  | cons d rest => rw [quotedLength, if_neg unbroken, if_pos rfl]

theorem quotedLength_plain (unbroken : c ≠ '\n') (other : c ≠ quote) (dark : c ≠ '\\')
    (rest : Text) :
    quotedLength quote (c :: rest) =
      ((quotedLength quote rest).1, (quotedLength quote rest).2 + 1) := by
  cases rest with
  | nil => simp [quotedLength, unbroken, other]
  | cons d rest => rw [quotedLength, if_neg unbroken, if_neg other, if_neg dark]

theorem quotedLength_backslash (other : '\\' ≠ quote) (unbroken : d ≠ '\n') (rest : Text) :
    quotedLength quote ('\\' :: d :: rest) =
      ((quotedLength quote rest).1, (quotedLength quote rest).2 + 2) := by
  rw [quotedLength, if_neg (by decide), if_neg other, if_pos rfl, if_neg unbroken]

/-- A quote without a backslash ends at the first mark behind the one that opens it. -/
theorem exists_body_of_closed {text : Text} {length : Nat}
    (closed : quotedLength quote text = (true, length)) (bare : '\\' ∉ text.take length) :
    ∃ body, text.take length = body ++ [quote] ∧ quote ∉ body := by
  fun_induction quotedLength quote text generalizing length with
  | case1 | case2 | case4 | case6 => cases closed
  | case3 c =>
      rw [Prod.mk.injEq, beq_iff_eq] at closed
      obtain ⟨rfl, rfl⟩ := closed
      exact ⟨[], rfl, List.not_mem_nil⟩
  | case5 =>
      cases closed
      exact ⟨[], rfl, List.not_mem_nil⟩
  | case7 =>
      cases closed
      exact absurd List.mem_cons_self bare
  | case8 c d rest _ other _ found more cut ih =>
      cases closed
      rw [List.take_succ_cons, List.mem_cons, not_or] at bare
      obtain ⟨body, taken, plain⟩ := ih cut bare.2
      refine ⟨c :: body, by rw [List.take_succ_cons, taken]; rfl, ?_⟩
      simpa [Ne.symm other] using plain

end Token

namespace Text.Quoted

open Token

/-- A character between double quotes, with a backslash where it needs one. -/
def escape (c : Char) : Text :=
  if c = '\\' ∨ c = '"' then ['\\', c] else [c]

theorem encode_double (value : Text) :
    encode '"' value = '"' :: (value.flatMap escape ++ ['"']) := by
  have twice : replaceChar '"' ['\\', '"'] (replaceChar '\\' ['\\', '\\'] value) =
      value.flatMap escape := by
    rw [replaceChar, replaceChar, List.flatMap_assoc]
    refine List.flatMap_congr fun c _ => ?_
    by_cases slash : c = '\\'
    · rw [escape, if_pos slash, if_pos (.inl slash), slash]
      rfl
    by_cases mark : c = '"'
    · rw [escape, if_neg slash, if_pos (.inr mark), mark]
      rfl
    · rw [escape, if_neg slash, if_neg (not_or.mpr ⟨slash, mark⟩), List.flatMap_cons, if_neg mark]
      rfl
  rw [encode, if_neg (by decide), twice]
  rfl

theorem encode_single (value : Text) : encode '\'' value = '\'' :: (value ++ ['\'']) := by
  rw [encode, if_pos rfl]
  rfl

/-! ## Double quotes -/

/-- An escaped character is taken as one, whatever follows it. -/
theorem quotedLength_escape {c : Char} (unbroken : c ≠ '\n') (rest : Text) :
    quotedLength '"' (escape c ++ rest) =
      ((quotedLength '"' rest).1, (quotedLength '"' rest).2 + (escape c).length) := by
  unfold escape
  split
  next => exact quotedLength_backslash (by decide) unbroken rest
  next plain =>
    rw [not_or] at plain
    exact quotedLength_plain unbroken plain.2 plain.1 rest

theorem quotedLength_escaped {value : Text} (unbroken : '\n' ∉ value) (rest : Text) :
    quotedLength '"' (value.flatMap escape ++ '"' :: rest) =
      (true, (value.flatMap escape).length + 1) := by
  induction value with
  | nil => exact quotedLength_mark (by decide) rest
  | cons c value ih =>
      obtain ⟨other, unbroken⟩ := List.ne_and_not_mem_of_not_mem_cons unbroken
      rw [List.flatMap_cons, List.append_assoc, quotedLength_escape (Ne.symm other), ih unbroken,
        List.length_append, Nat.add_right_comm, Nat.add_comm (escape c).length]

/-- A line feed in the value leaves the quote open. -/
theorem not_closed_of_broken {value : Text} (broken : '\n' ∈ value) (rest : Text) :
    (quotedLength '"' (value.flatMap escape ++ rest)).1 = false := by
  induction value with
  | nil => cases broken
  | cons c value ih =>
      rw [List.flatMap_cons, List.append_assoc]
      by_cases feed : c = '\n'
      · subst feed
        exact congrArg Prod.fst (quotedLength_feed _)
      · rw [quotedLength_escape feed]
        exact ih ((List.mem_cons.mp broken).resolve_left (Ne.symm feed))

theorem unescape?_escaped (value : Text) :
    unescape? .double (value.flatMap escape ++ ['"']) = some value := by
  induction value with
  | nil => rfl
  | cons c value ih =>
      rw [List.flatMap_cons, List.append_assoc, escape]
      split
      next marked =>
        rcases marked with rfl | rfl
        · exact congrArg (Option.map _) ih
        · exact congrArg (Option.map _) ih
      next plain =>
        rw [not_or] at plain
        rw [List.singleton_append, unescape?, if_neg plain.2, if_neg plain.1, ih]
        rfl

theorem decode_encode_double (value : Text) : decode (encode '"' value) = value := by
  rw [encode_double, decode]
  change (unescape? .double (value.flatMap escape ++ ['"'])).getD _ = value
  rw [unescape?_escaped]
  rfl

/-! ## Single quotes -/

/-- A quotation mark of either kind. -/
def isMark (c : Char) : Bool :=
  c == '\'' || c == '"'

/-- What a mode may add to what is still to be read: the character whose digits are being read. -/
def Mode.pending : Mode → Nat
  | .code _ => 1
  | _ => 0

/-- Reading makes no text longer. -/
theorem length_unescape?_le {mode : Mode} {text value : Text}
    (read : unescape? mode text = some value) :
    value.length ≤ text.length + mode.pending := by
  -- A mark is dropped, and everything else stands for at most as many characters.
  have dropped {rest more : Text} {pending : Nat} (ih : more.length ≤ rest.length + pending)
      {c : Char} :
      more.length ≤ (c :: rest).length + pending := by
    simp only [List.length_cons]
    omega
  have kept {rest : Text} {read : Option Text} {pending : Nat} {c d : Char}
      (ih : ∀ {value}, read = some value → value.length ≤ rest.length + 0) {value : Text}
      (found : read.map (c :: ·) = some value) : value.length ≤ (d :: rest).length + pending := by
    obtain ⟨more, known, rfl⟩ := Option.map_eq_some_iff.mp found
    have shorter := ih known
    simp only [List.length_cons]
    omega
  fun_induction unescape? mode text generalizing value with
  | case1 | case2 | case16 => cases read
  | case3 digits =>
      obtain ⟨c, -, rfl⟩ := Option.map_eq_some_iff.mp read
      exact Nat.le_refl 1
  | case4 =>
      cases read
      exact Nat.zero_le _
  | case5 rest ih | case6 rest _ ih | case8 rest ih | case10 rest ih | case11 rest _ ih
  | case13 rest ih =>
      exact dropped (ih read)
  | case15 rest ih =>
      have shorter : value.length ≤ rest.length + 1 := ih read
      simpa [Mode.pending] using shorter
  | case18 digits c rest _ ih => exact dropped (ih read)
  | case7 c rest _ _ ih | case9 c rest _ ih | case12 c rest _ _ ih => exact kept ih read
  | case14 c rest _ ih =>
      obtain ⟨meant, -, found⟩ := Option.bind_eq_some_iff.mp read
      exact kept ih found
  | case17 digits rest ih =>
      obtain ⟨named, -, found⟩ := Option.bind_eq_some_iff.mp read
      exact kept ih found

/-- A mark that stands outside of quotes is dropped. -/
theorem length_unescape?_lt {text value : Text} (read : unescape? .outside text = some value)
    (marked : ∃ c ∈ text, isMark c = true) : value.length < text.length := by
  induction text generalizing value with
  | nil => simp at marked
  | cons c rest ih =>
      rw [unescape?] at read
      split at read
      next => exact Nat.lt_succ_of_le (length_unescape?_le read)
      next single =>
        split at read
        next => exact Nat.lt_succ_of_le (length_unescape?_le read)
        next double =>
          obtain ⟨more, found, rfl⟩ := Option.map_eq_some_iff.mp read
          refine Nat.succ_lt_succ (ih found ?_)
          simpa [isMark, single, double] using marked

theorem unescape?_single {value : Text} (plain : '\'' ∉ value) (rest : Text) :
    unescape? .single (value ++ '\'' :: rest) = (unescape? .outside rest).map (value ++ ·) := by
  induction value with
  | nil => simp [unescape?]
  | cons c value ih =>
      obtain ⟨other, plain⟩ := List.ne_and_not_mem_of_not_mem_cons plain
      rw [List.cons_append, unescape?, if_neg (Ne.symm other), ih plain, Option.map_map]
      rfl

/-- A value with a mark in it is not read as itself. -/
theorem unescape?_ne_of_mem {value : Text} (marked : '\'' ∈ value) :
    unescape? .single (value ++ ['\'']) ≠ some value := by
  intro read
  obtain ⟨front, back, rfl, plain⟩ := List.eq_append_cons_of_mem marked
  rw [List.append_assoc, List.cons_append, unescape?_single plain] at read
  obtain ⟨more, found, same⟩ := Option.map_eq_some_iff.mp read
  have shorter := length_unescape?_lt found ⟨'\'', by simp, rfl⟩
  rw [List.append_cancel_left same, List.length_append, List.length_cons,
    List.length_cons] at shorter
  exact absurd shorter (by simp)

/-- Trimming quotation marks starts behind the mark in front and ends in front of the last one. -/
theorem dropAround_enclosed {p : Char → Bool} {c : Char} (inside : p c = true) (text : Text) :
    dropAround p (c :: (text ++ [c])) = dropAround p text := by
  rw [dropAround, dropAround, List.dropWhile_cons_of_pos inside, List.dropWhile_append]
  split
  next empty =>
    rw [List.isEmpty_iff.mp empty, List.dropWhile_cons_of_pos inside]
    rfl
  next => rw [dropEndWhile, List.reverse_append, List.reverse_singleton, List.singleton_append,
      List.dropWhile_cons_of_pos inside]; rfl

theorem decode_single (body : Text) :
    decode ('\'' :: (body ++ ['\''])) =
      (unescape? .single (body ++ ['\''])).getD (dropAround isMark body) := by
  rw [← dropAround_enclosed (show isMark '\'' = true from rfl) body]
  rfl

/-- What is read between two marks is no longer than what stands there. -/
theorem length_decode_single_le (body : Text) :
    (decode ('\'' :: (body ++ ['\'']))).length ≤ body.length := by
  rw [decode_single]
  cases read : unescape? .single (body ++ ['\'']) with
  | none =>
      have front := (List.dropWhile_suffix isMark (l := body)).length_le
      have back := (List.rdropWhile_prefix isMark (body.dropWhile isMark)).length_le
      exact Nat.le_trans back front
  | some value =>
      by_cases marked : '\'' ∈ body
      · obtain ⟨front, back, rfl, plain⟩ := List.eq_append_cons_of_mem marked
        rw [List.append_assoc, List.cons_append, unescape?_single plain] at read
        obtain ⟨more, found, rfl⟩ := Option.map_eq_some_iff.mp read
        have shorter := length_unescape?_lt found ⟨'\'', by simp, rfl⟩
        simp only [List.length_append, List.length_cons, List.length_nil] at shorter
        simp only [Option.getD_some, List.length_append, List.length_cons]
        omega
      · rw [unescape?_single marked] at read
        simp only [unescape?, Option.map_some, List.append_nil, Option.some.injEq] at read
        simp [read]

/--
A value that is written between single quotes as one quote which is read as the value: the
mark behind it closes the quote, and no mark stands in it, unless the whole cannot be read.
-/
structure IsBare (value : Text) : Prop where
  closed : quotedLength '\'' (value ++ ['\'']) = (true, value.length + 1)
  plain : '\'' ∈ value → unescape? .single (value ++ ['\'']) = none ∧ dropAround isMark value = value

theorem decode_encode_single_iff {value : Text} :
    decode (encode '\'' value) = value ↔
      ('\'' ∈ value → unescape? .single (value ++ ['\'']) = none ∧
        dropAround isMark value = value) := by
  rw [encode_single, decode_single]
  constructor
  · intro same marked
    cases read : unescape? .single (value ++ ['\'']) with
    | none =>
        rw [read] at same
        exact ⟨rfl, same⟩
    | some found =>
        rw [read] at same
        exact absurd (read.trans (congrArg some same)) (unescape?_ne_of_mem marked)
  · intro kept
    by_cases marked : '\'' ∈ value
    · obtain ⟨unread, trimmed⟩ := kept marked
      rw [unread]
      exact trimmed
    · rw [unescape?_single marked]
      simp [unescape?]

/-- A quote in front of another character that is read as the value ends with the
mark behind the value. -/
theorem isBare_of_closed {value : Text} {c : Char} {length : Nat} (other : c ≠ '\'')
    (closed : quotedLength '\'' (value ++ ['\'', c]) = (true, length))
    (decoded : decode ('\'' :: (value ++ ['\'', c]).take length) = value) : IsBare value := by
  obtain ⟨body, taken⟩ := List.getLast?_eq_some_iff.mp (getLast?_of_closed closed)
  have shorter := length_decode_single_le body
  rw [← taken, decoded] at shorter
  have within : length ≤ (value ++ ['\'', c]).length := by
    have bound := quotedLength_le '\'' (value ++ ['\'', c])
    rwa [closed] at bound
  have cut := congrArg List.length taken
  rw [List.length_take, Nat.min_eq_left within, List.length_append, List.length_singleton] at cut
  rw [List.length_append] at within
  simp only [List.length_cons, List.length_nil] at within
  rcases (by omega : length = value.length + 1 ∨ length = value.length + 2) with rfl | rfl
  · have whole : (value ++ ['\'', c]).take (value.length + 1) = value ++ ['\''] := by
      simp [List.take_append]
    have closed := quotedLength_take closed
    rw [whole] at closed decoded
    refine ⟨closed, decode_encode_single_iff.mp ?_⟩
    rw [encode_single]
    exact decoded
  · rw [List.take_of_length_le (by simp)] at taken
    have last := congrArg List.getLast? taken
    simp [other] at last

/-- A value without marks and backslashes stands between its marks as it is. -/
theorem encode_plain {quote : Char} {value : Text} (mark : quote = '"' ∨ quote = '\'')
    (plain : quote ∉ value)
    (bare : '\\' ∉ value) : encode quote value = quote :: (value ++ [quote]) := by
  rcases mark with rfl | rfl
  · have same : value.flatMap escape = value := by
      refine (List.flatMap_congr fun c mem => ?_).trans (List.flatMap_singleton' value)
      have other : ¬ (c = '\\' ∨ c = '"') := by
        rintro (rfl | rfl)
        · exact bare mem
        · exact plain mem
      rw [escape, if_neg other]
    rw [encode_double, same]
  · exact encode_single value

theorem decode_plain {quote : Char} {value : Text} (mark : quote = '"' ∨ quote = '\'')
    (plain : quote ∉ value) :
    decode (encode quote value) = value := by
  rcases mark with rfl | rfl
  · exact decode_encode_double value
  · exact decode_encode_single_iff.mpr fun marked => absurd marked plain

end Text.Quoted

end DocComment
