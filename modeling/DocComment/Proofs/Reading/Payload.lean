import DocComment.Payload.Reader
import DocComment.Proofs.Reading.TypeExpr

/-!
# Payloads stop at line ends

A payload, plain or typed, never crosses the closing marker, and what follows
it is the end of a line.  The rules of a dialect are free to stop elsewhere;
that is why these facts are about the two grammars and not about payloads.
-/

namespace DocComment

namespace Payload

namespace Grammar

open Read

/-! ## Plain payloads -/

theorem ne_closing_of_mem_take_plainLength {depth : Nat} {tokens : List Token} {token : Token}
    (mem : token ∈ tokens.take (plainLength depth tokens)) : token.kind ≠ .closing := by
  induction tokens generalizing depth with
  | nil => simp at mem
  | cons next rest ih =>
      unfold plainLength at mem
      split at mem
      next => simp at mem
      next stands =>
        split at mem
        next => simp at mem
        next =>
          rcases List.mem_cons.mp mem with rfl | mem
          · simp [stands]
          · exact ih mem
      next stands =>
        rcases List.mem_cons.mp mem with rfl | mem
        · simp [stands]
        · exact ih mem
      next stands =>
        rcases List.mem_cons.mp mem with rfl | mem
        · simp [stands]
        · exact ih mem
      next notClosing _ _ _ =>
        rcases List.mem_cons.mp mem with rfl | mem
        · exact notClosing
        · exact ih mem

/-- Behind a plain payload stands a line break, the closing marker or nothing. -/
theorem kind_of_drop_plainLength {depth : Nat} {tokens : List Token} {token : Token}
    (stands : (tokens.drop (plainLength depth tokens)).head? = some token) :
    token.kind = .lineBreak ∨ token.kind = .closing := by
  induction tokens generalizing depth with
  | nil => simp at stands
  | cons next rest ih =>
      unfold plainLength at stands
      split at stands
      next closing =>
        rw [List.drop_zero, List.head?_cons, Option.some.injEq] at stands
        exact Or.inr (stands ▸ closing)
      next broken =>
        split at stands
        next =>
          rw [List.drop_zero, List.head?_cons, Option.some.injEq] at stands
          exact Or.inl (stands ▸ broken)
        next => exact ih stands
      next => exact ih stands
      next => exact ih stands
      next => exact ih stands

theorem run_plainText (cursor : Cursor) :
    ∃ text, plainText cursor = .ok text (cursor.forward (plainLength 0 cursor.rest)) :=
  ⟨_, rfl⟩

theorem crosses_plainText (cursor : Cursor) : Crosses (· ≠ .closing) plainText cursor := by
  obtain ⟨text, run⟩ := run_plainText cursor
  unfold Crosses
  rw [run]
  exact cursor.crosses_forward _ fun _ mem => ne_closing_of_mem_take_plainLength mem

theorem isAtLineEnd_of_plainText {cursor after : Cursor} {text : Text}
    (run : plainText cursor = .ok text after) : after.isAtLineEnd = true := by
  obtain ⟨_, ran⟩ := run_plainText cursor
  rw [ran] at run
  cases run
  rw [Cursor.isAtLineEnd_iff]
  intro kind stands
  obtain ⟨token, found, rfl⟩ := Option.map_eq_some_iff.mp stands
  exact kind_of_drop_plainLength found

/-! ## Subjects -/

theorem staysWithin_typeUnless (absent : Bool) :
    TypeExpr.Grammar.StaysWithin (typeUnless absent) := by
  intro cursor
  unfold typeUnless
  split
  next => exact crosses_pure _ _
  next => exact crosses_bind (TypeExpr.staysWithin_read _) fun _ _ _ => crosses_pure _ _

theorem staysWithin_expectSeparated : TypeExpr.Grammar.StaysWithin expectSeparated := by
  intro cursor
  apply crosses_get_bind
  split
  next => exact crosses_pure _ _
  next => exact crosses_failExpecting _ _

theorem staysWithin_subject (kind : Subject.Kind) :
    TypeExpr.Grammar.StaysWithin (subject kind) := by
  intro cursor
  cases kind with
  | param =>
      refine crosses_get_bind (crosses_bind (staysWithin_typeUnless _ _) fun _ _ _ => ?_)
      refine crosses_bind (TypeExpr.Grammar.staysWithin_accept rfl _) fun _ _ _ => ?_
      refine crosses_bind (TypeExpr.Grammar.staysWithin_accept rfl _) fun _ _ _ => ?_
      refine crosses_bind (TypeExpr.Grammar.staysWithin_expect rfl _) fun _ _ _ => ?_
      exact crosses_bind (staysWithin_expectSeparated _) fun _ _ _ => crosses_pure _ _
  | returned =>
      refine crosses_bind (TypeExpr.staysWithin_read _) fun _ _ _ => ?_
      exact crosses_bind (staysWithin_expectSeparated _) fun _ _ _ => crosses_pure _ _
  | var =>
      refine crosses_get_bind (crosses_bind (staysWithin_typeUnless _ _) fun _ _ _ => ?_)
      refine crosses_bind (TypeExpr.Grammar.staysWithin_acceptVariable _) fun _ _ _ => ?_
      exact crosses_bind (staysWithin_expectSeparated _) fun _ _ _ => crosses_pure _ _
  | thrown =>
      refine crosses_bind (TypeExpr.staysWithin_read _) fun _ _ _ => ?_
      exact crosses_bind (staysWithin_expectSeparated _) fun _ _ _ => crosses_pure _ _

theorem crosses_subject (kind : Subject.Kind) (cursor : Cursor) :
    Crosses (· ≠ .closing) (subject kind) cursor :=
  Crosses.mono (staysWithin_subject kind cursor) fun _ inside =>
    Token.Kind.ne_closing_of_isWithinType inside

/-! ## Descriptions -/

theorem crosses_toLineEnd (cursor : Cursor) :
    Crosses (· ≠ .closing) (move Cursor.toLineEnd) cursor :=
  crosses_move (cursor.crosses_toLineEnd.mono fun _ inside => inside.2)

theorem crosses_restOfLine (cursor : Cursor) : Crosses (· ≠ .closing) restOfLine cursor := by
  refine crosses_get_bind (crosses_bind (crosses_toLineEnd cursor) fun _ middle _ => ?_)
  exact crosses_get_bind (crosses_pure _ _)

theorem isAtLineEnd_of_restOfLine {cursor after : Cursor} {text : Text}
    (run : restOfLine cursor = .ok text after) : after.isAtLineEnd = true := by
  cases run
  exact cursor.isAtLineEnd_toLineEnd

theorem isAt_lineBreak_of_continues {cursor : Cursor} (more : continues cursor = true) :
    cursor.kind? = some .lineBreak := by
  rw [continues, Bool.and_eq_true] at more
  exact beq_iff_eq.mp more.1

theorem crosses_furtherLines (bound : Nat) (cursor : Cursor) :
    Crosses (· ≠ .closing) (furtherLines bound) cursor := by
  induction bound generalizing cursor with
  | zero => exact crosses_pure _ _
  | succ bound ih =>
      apply crosses_get_bind
      split
      next more =>
        have stands := isAt_lineBreak_of_continues more
        refine crosses_bind (crosses_step fun kind here => ?_) fun _ _ _ => ?_
        · rw [stands] at here
          cases here
          decide
        refine crosses_bind (crosses_toLineEnd _) fun _ _ _ => ?_
        refine crosses_get_bind (crosses_bind (ih _) fun _ _ _ => ?_)
        exact crosses_pure _ _
      next => exact crosses_pure _ _

theorem isAtLineEnd_of_furtherLines {bound : Nat} {cursor after : Cursor} {lines : List Text}
    (ends : cursor.isAtLineEnd = true) (run : furtherLines bound cursor = .ok lines after) :
    after.isAtLineEnd = true := by
  induction bound generalizing cursor lines with
  | zero =>
      cases run
      exact ends
  | succ bound ih =>
      unfold furtherLines at run
      rw [run_get_bind] at run
      split at run
      next =>
        obtain ⟨_, _, stepped, run⟩ := bind_eq_ok.mp run
        obtain ⟨_, _, moved, run⟩ := bind_eq_ok.mp run
        cases moved
        rw [run_get_bind, bind_eq_ok] at run
        obtain ⟨_, middle, ran, finished⟩ := run
        cases finished
        exact ih (Cursor.isAtLineEnd_toLineEnd _) ran
      next =>
        cases run
        exact ends

theorem crosses_description (cursor : Cursor) : Crosses (· ≠ .closing) description cursor := by
  refine crosses_bind (crosses_restOfLine cursor) fun first _ _ => ?_
  split
  next => exact crosses_pure _ _
  next =>
    refine crosses_get_bind (crosses_bind (crosses_furtherLines _ _) fun _ _ _ => ?_)
    exact crosses_pure _ _

theorem isAtLineEnd_of_description {cursor after : Cursor} {found : Text × Option Text}
    (run : description cursor = .ok found after) : after.isAtLineEnd = true := by
  obtain ⟨first, middle, taken, run⟩ := bind_eq_ok.mp run
  have ends := isAtLineEnd_of_restOfLine taken
  split at run
  next =>
    cases run
    exact ends
  next =>
    rw [run_get_bind, bind_eq_ok] at run
    obtain ⟨_, behind, ran, finished⟩ := run
    cases finished
    exact isAtLineEnd_of_furtherLines ends ran

theorem crosses_typedWithWording (kind : Subject.Kind) (cursor : Cursor) :
    Crosses (· ≠ .closing) (typedWithWording kind) cursor := by
  refine crosses_bind (crosses_subject kind cursor) fun _ middle _ => ?_
  exact crosses_bind (crosses_description middle) fun _ _ _ => crosses_pure _ _

theorem isAtLineEnd_of_typedWithWording {kind : Subject.Kind} {cursor after : Cursor}
    {found : Payload × Option Text} (run : typedWithWording kind cursor = .ok found after) :
    after.isAtLineEnd = true := by
  obtain ⟨subject, middle, _, run⟩ := bind_eq_ok.mp run
  obtain ⟨described, behind, ran, finished⟩ := bind_eq_ok.mp run
  cases finished
  exact isAtLineEnd_of_description ran

end Grammar

end Payload

end DocComment
