import DocComment.Proofs.Token.Pieces
import DocComment.Rendering.Cleanup

/-!
# Scanning from the front

A known piece becomes a token of its own, and the scanner goes on behind it
(`scan_append`).
-/

namespace DocComment

namespace Token

theorem scanFrom_eq_scan_drop (skip : Nat) (text : Text) :
    scanFrom skip text = scan (text.drop skip) := by
  induction text generalizing skip with
  | nil => simp [scanFrom, scan]
  | cons c rest ih =>
      cases skip with
      | zero => rfl
      | succ skip => exact ih skip

theorem scan_cons (c : Char) (rest : Text) :
    scan (c :: rest) = prepend ⟨(piece c rest).1, c :: rest.take (piece c rest).2⟩
      (scan (rest.drop (piece c rest).2)) := by
  rw [← scanFrom_eq_scan_drop]
  rfl

/-- A text is cut piece by piece. -/
@[elab_as_elim]
theorem piecewise {motive : Text → Prop} (nil : motive [])
    (cons : ∀ c rest, motive (rest.drop (piece c rest).2) → motive (c :: rest)) (text : Text) :
    motive text := by
  induction known : text.length using Nat.strongRecOn generalizing text with
  | ind length ih =>
    cases text with
    | nil => exact nil
    | cons c rest =>
        refine cons c rest (ih _ ?_ _ rfl)
        rw [← known, List.length_drop, List.length_cons]
        omega

theorem prepend_of_known {token : Token} (known : token.kind ≠ .other) (tokens : List Token) :
    prepend token tokens = token :: tokens := by
  cases tokens with
  | nil => rfl
  | cons next tokens => exact if_neg fun joined => known joined.1

/-- A known piece is the first token, and what follows it is scanned by itself. -/
theorem scan_append {c : Char} {front rest : Text} {kind : Kind}
    (cut : piece c (front ++ rest) = (kind, front.length)) (known : kind ≠ .other) :
    scan (c :: (front ++ rest)) = ⟨kind, c :: front⟩ :: scan rest := by
  rw [scan_cons, cut, prepend_of_known known, List.take_left, List.drop_left]

theorem runLength_append {p : Char → Bool} {front rest : Text} (inside : ∀ c ∈ front, p c = true)
    (ends : ∀ c, rest.head? = some c → p c = false) :
    runLength p (front ++ rest) = front.length := by
  rw [runLength, List.takeWhile_append_of_pos inside]
  cases rest with
  | nil => simp
  | cons c rest => simp [ends c rfl]

theorem piece_padding {c : Char} (pads : isPadding c = true) (rest : Text) :
    piece c rest = (.padding, runLength isPadding rest) := by
  have other {d : Char} (outside : isPadding d = false) : c ≠ d := ne_of_class outside pads
  unfold piece
  rw [if_neg (other (by decide)), if_neg (other (by decide)), if_pos pads]

theorem scan_padding {c : Char} {front rest : Text} (inside : ∀ d ∈ c :: front, isPadding d = true)
    (ends : ∀ d, rest.head? = some d → isPadding d = false) :
    scan (c :: (front ++ rest)) = ⟨.padding, c :: front⟩ :: scan rest := by
  obtain ⟨pads, others⟩ := List.forall_mem_cons.mp inside
  refine scan_append ?_ (by decide)
  rw [piece_padding pads, runLength_append others ends]

theorem scan_opener (rest : Text) :
    scan (Cleanup.opener ++ rest) = ⟨.opening, Cleanup.opener⟩ :: scan rest :=
  @scan_append '/' ['*', '*'] rest .opening rfl (by decide)

end Token

end DocComment
