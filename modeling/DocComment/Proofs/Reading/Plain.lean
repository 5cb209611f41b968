import DocComment.Proofs.Reading.Payload
import DocComment.Proofs.Reading.Subject
import DocComment.Proofs.Rendering.Starred
import DocComment.Proofs.Text.Trim

/-!
# Reading written plain payloads

A plain payload is written with a star in front of each line behind its first
one.  When every line feed lies inside an open parenthesis and none is open in
the end, the payload is taken as far as it was written, and without its stars it
is the text that it was written from (`run_plainText_starred`).
-/

namespace DocComment

open Token

namespace Payload

/-- Every line feed lies inside an open parenthesis, and none is open in the end. -/
structure Enclosed (depth : Nat) (text : Text) : Prop where
  inside : ∀ front back, text = front ++ '\n' :: back → 0 < openRounds depth (scan front)
  closed : openRounds depth (scan text) = 0

/-- Behind a line feed the parentheses of the line in front of it are open. -/
theorem Enclosed.behind {depth : Nat} {line rest : Text}
    (enclosed : Enclosed depth (line ++ '\n' :: rest))
    (carriage : '\r' ∉ line) : Enclosed (openRounds depth (scan line)) rest := by
  have further (more : Text) : openRounds depth (scan (line ++ '\n' :: more)) =
      openRounds (openRounds depth (scan line)) (scan more) := by
    rw [scan_append_feed carriage, openRounds_append, openRounds_feed]
  refine ⟨fun front back split => ?_, (further rest).symm.trans enclosed.closed⟩
  rw [← further front]
  exact enclosed.inside (line ++ '\n' :: front) back
    (by rw [split, List.append_assoc, List.cons_append])

/-- A line in which no parenthesis is opened is enclosed. -/
theorem enclosed_of_flat {text : Text} (feed : '\n' ∉ text) (opens : '(' ∉ text) :
    Enclosed 0 text := by
  have flat : ∀ tokens : List Token, (∀ token ∈ tokens, token.kind ≠ .roundOpen) →
      openRounds 0 tokens = 0 := by
    intro tokens other
    induction tokens with
    | nil => rfl
    | cons token tokens ih =>
        obtain ⟨here, later⟩ := List.forall_mem_cons.mp other
        have same : roundsBehind 0 token.kind = 0 := by
          generalize token.kind = kind at here
          cases kind with
          | roundOpen => exact absurd rfl here
          | _ => rfl
        rw [openRounds, List.foldl_cons, same]
        exact ih later
  refine ⟨fun front back split => absurd ?_ feed, flat _ fun token mem kind => opens ?_⟩
  · rw [split]
    exact List.mem_append_right _ List.mem_cons_self
  · have written : token.text = ['('] :=
      (isPiece_of_mem_scan mem (by rw [kind]; decide)).text_of_mark (by rw [kind]; rfl)
    exact (text_infix_of_mem_scan mem).subset (written ▸ List.mem_cons_self)

namespace Grammar

section Inline

variable {tokens : List Token}
  (inline : ∀ token ∈ tokens, token.kind ≠ .lineBreak ∧ token.kind ≠ .closing)
include inline

/-- The tokens of one line belong to a payload that has reached them. -/
theorem plainLength_append (depth : Nat) (rest : List Token) :
    plainLength depth (tokens ++ rest) =
      tokens.length + plainLength (openRounds depth tokens) rest := by
  induction tokens generalizing depth with
  | nil => exact (Nat.zero_add _).symm
  | cons token tokens ih =>
      obtain ⟨⟨broken, closing⟩, later⟩ := List.forall_mem_cons.mp inline
      have step : plainLength depth (token :: (tokens ++ rest)) =
          plainLength (roundsBehind depth token.kind) (tokens ++ rest) + 1 := by
        rw [plainLength]
        split
        next same => exact absurd same closing
        next same => exact absurd same broken
        next same => rw [same]; rfl
        next same => rw [same]; rfl
        next notOpen notClose =>
          rw [roundsBehind]
          · exact notOpen
          · exact notClose
      rw [List.cons_append, step, ih later, List.length_cons]
      have counted : openRounds depth (token :: tokens) =
          openRounds (roundsBehind depth token.kind) tokens := rfl
      rw [counted]
      omega

theorem undecorated_inline : undecorated false tokens = textOf tokens := by
  induction tokens with
  | nil => rfl
  | cons token tokens ih =>
      obtain ⟨⟨broken, _⟩, later⟩ := List.forall_mem_cons.mp inline
      rw [undecorated, if_neg broken, Bool.false_and, if_neg Bool.false_ne_true, ih later,
        textOf_cons]

theorem undecorated_append {next : Token} (broken : next.kind = .lineBreak) (after : Bool)
    (rest : List Token) :
    undecorated after (tokens ++ next :: rest) =
      undecorated after tokens ++ '\n' :: undecorated true rest := by
  induction tokens generalizing after with
  | nil => exact if_pos broken
  | cons token tokens ih =>
      obtain ⟨⟨other, _⟩, later⟩ := List.forall_mem_cons.mp inline
      rw [List.cons_append, undecorated, undecorated, if_neg other, if_neg other, ih later]
      split <;> rw [List.append_assoc]

end Inline

/-! ## Lines -/

/-- What stands in front of a line: nothing, or what separates it from its star. -/
def leadIn (after : Bool) (line : Text) : Text :=
  if after then starLead line else []

theorem leadIn_append_feed (after : Bool) (line rest : Text) :
    leadIn after (line ++ '\n' :: rest) = leadIn after line := by
  unfold leadIn starLead
  cases line <;> rfl

section Line

variable {after : Bool} {line tail : Text} (feed : '\n' ∉ line)
include feed

theorem leadIn_eq : leadIn after line = [] ∧ (after = false ∨ line = []) ∨
    leadIn after line = [' '] ∧ after = true := by
  cases after with
  | false => exact Or.inl ⟨rfl, Or.inl rfl⟩
  | true =>
      cases line with
      | nil => exact Or.inl ⟨rfl, Or.inr rfl⟩
      | cons c more =>
          have other : c ≠ '\n' := fun same => feed (same ▸ List.mem_cons_self)
          refine Or.inr ⟨?_, rfl⟩
          rw [leadIn, if_pos rfl, starLead, Cleanup.isLineEnd, if_neg (by simpa using other)]

theorem dropWhile_leadIn :
    (leadIn after line ++ line).dropWhile isPadding = line.dropWhile isPadding := by
  rcases @leadIn_eq after line feed with ⟨none, _⟩ | ⟨space, _⟩
  · rw [none, List.nil_append]
  · rw [space, List.singleton_append, List.dropWhile_cons_of_pos rfl]

theorem openRounds_leadIn (depth : Nat) :
    openRounds depth (scan (leadIn after line ++ line)) = openRounds depth (scan line) := by
  rw [← openRounds_dropWhile, dropWhile_leadIn feed, openRounds_dropWhile]

theorem mem_leadIn {c : Char} (mem : c ∈ leadIn after line ++ line) : c = ' ' ∨ c ∈ line := by
  rcases @leadIn_eq after line feed with ⟨none, _⟩ | ⟨space, _⟩
  · exact Or.inr (by simpa [none] using mem)
  · simpa [space] using mem

theorem inline_leadIn (unclosed : line.Unclosed) :
    ∀ token ∈ scan (leadIn after line ++ line), token.kind ≠ .lineBreak ∧
      token.kind ≠ .closing := by
  have whole : (leadIn after line ++ line).Unclosed := by
    rcases @leadIn_eq after line feed with ⟨none, _⟩ | ⟨space, _⟩
    · rwa [none]
    · rw [space]
      exact unclosed.cons (by decide)
  refine fun token mem =>
    ⟨ne_lineBreak_of_mem_scan (fun broken => ?_) mem, ne_closing_of_mem_scan whole mem⟩
  rcases mem_leadIn feed broken with same | inside
  · cases same
  · exact feed inside

/-- Without what separates it from its star a line is what it was written from. -/
theorem undecorated_leadIn (unclosed : line.Unclosed) :
    undecorated after (scan (leadIn after line ++ line)) = line := by
  have inline := @inline_leadIn after line feed unclosed
  rcases @leadIn_eq after line feed with ⟨none, plain⟩ | ⟨space, rfl⟩
  · rw [none] at inline ⊢
    rcases plain with rfl | rfl
    · exact (undecorated_inline inline).trans (textOf_scan line)
    · rfl
  · rw [space] at inline ⊢
    rw [List.singleton_append, scan_cons_of_padding rfl] at inline ⊢
    have bare : undecorated false (scan (line.dropWhile isPadding)) = line.dropWhile isPadding :=
      (undecorated_inline (List.forall_mem_cons.mp inline).2).trans (textOf_scan _)
    change line.takeWhile isPadding ++ undecorated false (scan (line.dropWhile isPadding)) = line
    rw [bare, List.takeWhile_append_dropWhile]

theorem scan_leadIn (carriage : '\r' ∉ line) (rest : Text) :
    scan (leadIn after line ++ (line ++ '\n' :: rest)) =
      scan (leadIn after line ++ line) ++ scan ('\n' :: rest) := by
  rw [← List.append_assoc]
  refine scan_append_feed (fun returned => ?_) rest
  rcases mem_leadIn feed returned with same | inside
  · cases same
  · exact carriage inside

end Line

/-! ## Whole payloads -/

variable {text tail : Text}

theorem head?_starLead (ends : tail.head? = some '\n') (text : Text) :
    (starLead text ++ (starred text ++ tail)).head? ≠ some '/' := by
  obtain ⟨rest, rfl⟩ := List.head?_eq_some_iff.mp ends
  cases text with
  | nil => simp [starLead, starred, Cleanup.isLineEnd]
  | cons c more =>
      by_cases broken : c = '\n'
      · subst broken
        rw [starred_feed, starLead, Cleanup.isLineEnd]
        simp
      · rw [starLead, Cleanup.isLineEnd, if_neg (by simpa using broken)]
        simp

/-- The tokens of a written text are taken as far as it reaches, and give it back. -/
theorem exists_tokens (after : Bool) {depth : Nat} (carriage : '\r' ∉ text)
    (unclosed : text.Unclosed) (enclosed : Enclosed depth text) (ends : EndsEntry tail) :
    ∃ tokens, scan (leadIn after text ++ (starred text ++ tail)) = tokens ++ scan tail ∧
      plainLength depth (tokens ++ scan tail) = tokens.length ∧
      undecorated after tokens = text := by
  induction text using Text.lineInduction generalizing after depth with
  | last line feed =>
      obtain ⟨broken, more, scanned, _⟩ := ends.scanned
      obtain ⟨rest, rfl⟩ := List.head?_eq_some_iff.mp ends.head
      refine ⟨scan (leadIn after line ++ line), ?_, ?_, undecorated_leadIn feed unclosed⟩
      · rw [starred_of_unbroken feed, scan_leadIn feed carriage]
      · rw [plainLength_append (inline_leadIn feed unclosed), openRounds_leadIn feed,
          enclosed.closed, scanned]
        rfl
  | feed line rest feed ih =>
      rw [List.mem_append, List.mem_cons, not_or, not_or] at carriage
      have front : line.Unclosed := unclosed.of_isInfix (List.prefix_append _ _).isInfix
      obtain ⟨tokens, scanned, length, written⟩ := ih true carriage.2.2
        (unclosed.of_isInfix ⟨line ++ ['\n'], [], by simp⟩) (enclosed.behind carriage.1)
      have inline := @inline_leadIn after line feed front
      refine ⟨scan (leadIn after line ++ line) ++ ⟨.lineBreak, ['\n', ' ', '*']⟩ :: tokens, ?_, ?_, ?_⟩
      · rw [leadIn_append_feed, starred_append feed, starred_feed, List.append_assoc]
        simp only [List.cons_append, List.append_assoc]
        rw [scan_leadIn feed carriage.1, scan_starred (head?_starLead ends.head rest)]
        exact congrArg (fun behind => _ ++ (_ :: behind)) scanned
      · have deep := enclosed.inside line rest rfl
        rw [List.append_assoc, plainLength_append inline, openRounds_leadIn feed,
          List.length_append]
        rw [List.cons_append, plainLength]
        dsimp only
        rw [if_neg (Nat.ne_of_gt deep), length, List.length_cons]
      · rw [undecorated_append inline rfl, undecorated_leadIn feed front, written]

/-- A plain payload is read back from its written form. -/
theorem run_plainText_starred {cursor : Cursor} (carriage : '\r' ∉ text) (unclosed : text.Unclosed)
    (enclosed : Enclosed 0 text) (trimmed : Text.trimEnd text = text) (ends : EndsEntry tail)
    (stands : cursor.rest = scan (starred text ++ tail)) :
    ∃ after, plainText cursor = .ok text after ∧ after.rest = scan tail := by
  obtain ⟨tokens, scanned, length, written⟩ := exists_tokens false carriage unclosed enclosed ends
  replace stands : cursor.rest = tokens ++ scan tail := stands.trans scanned
  refine ⟨cursor.forward tokens.length, ?_, ?_⟩
  · have taken : cursor.rest.take tokens.length = tokens := by rw [stands, List.take_left]
    have run : plainText cursor = .ok (Text.trimEnd (undecorated false
        (cursor.rest.take (plainLength 0 cursor.rest))))
        (cursor.forward (plainLength 0 cursor.rest)) := rfl
    have same : plainLength 0 cursor.rest = tokens.length := by rw [stands, length]
    rw [run, same, taken, written, trimmed]
  · rw [Cursor.forward, stands, List.drop_left]

end Grammar

end Payload

end DocComment
