import DocComment.Proofs.Token.Crossing
import DocComment.Read

/-!
# What readers cross

`Read.Crosses` bounds the tokens that a reader moves over, whether it succeeds
or fails.  The statements follow the combinators: a sequence crosses what its
parts cross, and going back after a failure crosses nothing.
-/

namespace DocComment

namespace Read

open Token

variable {α β : Type} {p : Kind → Prop}

/-! ## Running sequences -/

theorem run_get_bind (next : Cursor → Read α) (cursor : Cursor) :
    (get >>= next : Read α) cursor = next cursor cursor :=
  rfl

theorem run_bind_of_ok {read : Read α} {next : α → Read β} {cursor middle : Cursor} {value : α}
    (run : read cursor = .ok value middle) : (read >>= next) cursor = next value middle := by
  change EStateM.bind read next cursor = _
  rw [EStateM.bind, run]

theorem run_bind_of_error {read : Read α} {next : α → Read β} {cursor middle : Cursor}
    {failure : Failure} (run : read cursor = .error failure middle) :
    (read >>= next) cursor = .error failure middle := by
  change EStateM.bind read next cursor = _
  rw [EStateM.bind, run]

theorem bind_eq_ok {read : Read α} {next : α → Read β} {cursor after : Cursor} {result : β} :
    (read >>= next) cursor = .ok result after ↔
      ∃ value middle, read cursor = .ok value middle ∧ next value middle = .ok result after := by
  cases run : read cursor with
  | ok value middle =>
      rw [run_bind_of_ok run]
      constructor
      · intro ran
        exact ⟨value, middle, rfl, ran⟩
      · rintro ⟨_, _, same, ran⟩
        cases same
        exact ran
  | error failure middle =>
      rw [run_bind_of_error run]
      constructor
      · intro ran
        cases ran
      · rintro ⟨_, _, same, _⟩
        cases same

theorem run_accept (kind : Kind) (cursor : Cursor) :
    accept kind cursor = .ok (cursor.isAt kind) (cursor.accept kind) := by
  unfold accept Cursor.accept
  rw [run_get_bind]
  cases cursor.isAt kind <;> rfl

theorem expect_eq_ok {kind : Kind} {cursor after : Cursor} {token : Token}
    (run : expect kind cursor = .ok token after) :
    cursor.kind? = some kind ∧ token.text = cursor.text ∧ after = cursor.advance := by
  unfold expect at run
  rw [run_get_bind] at run
  cases stands : cursor.rest with
  | nil =>
      rw [stands] at run
      cases run
  | cons found rest =>
      rw [stands] at run
      dsimp only at run
      split at run
      next same =>
        cases run
        exact ⟨by rw [Cursor.kind?, stands, ← same]; rfl, by rw [Cursor.text, stands], rfl⟩
      next => cases run

/-! ## Crossings of readers -/

/-- However a reader ends when it starts at a cursor, it has only crossed tokens of a class. -/
def Crosses (p : Kind → Prop) (read : Read α) (cursor : Cursor) : Prop :=
  match read cursor with
  | .ok _ after => cursor.Crosses p after
  | .error _ after => cursor.Crosses p after

theorem Crosses.of_ok {read : Read α} {cursor after : Cursor} {value : α}
    (crosses : Crosses p read cursor) (run : read cursor = .ok value after) :
    cursor.Crosses p after := by
  unfold Crosses at crosses
  rwa [run] at crosses

theorem Crosses.mono {q : Kind → Prop} {read : Read α} {cursor : Cursor}
    (crosses : Crosses p read cursor) (weaker : ∀ kind, p kind → q kind) :
    Crosses q read cursor := by
  unfold Crosses at crosses ⊢
  cases run : read cursor with
  | ok value after =>
      rw [run] at crosses
      exact Cursor.Crosses.mono crosses weaker
  | error failure after =>
      rw [run] at crosses
      exact Cursor.Crosses.mono crosses weaker

theorem crosses_pure (value : α) (cursor : Cursor) : Crosses p (pure value) cursor :=
  Cursor.Crosses.refl p cursor

theorem crosses_throw (failure : Failure) (cursor : Cursor) :
    Crosses p (throw failure : Read α) cursor :=
  Cursor.Crosses.refl p cursor

theorem crosses_bind {read : Read α} {next : α → Read β} {cursor : Cursor}
    (front : Crosses p read cursor)
    (back : ∀ value middle, read cursor = .ok value middle → Crosses p (next value) middle) :
    Crosses p (read >>= next) cursor := by
  unfold Crosses at front ⊢
  cases run : read cursor with
  | ok value middle =>
      have later := back value middle run
      rw [run] at front
      rw [run_bind_of_ok run]
      unfold Crosses at later
      cases ran : next value middle with
      | ok result after =>
          rw [ran] at later
          exact front.trans later
      | error failure after =>
          rw [ran] at later
          exact front.trans later
  | error failure middle =>
      rw [run] at front
      rw [run_bind_of_error run]
      exact front

theorem crosses_get_bind {next : Cursor → Read α} {cursor : Cursor}
    (back : Crosses p (next cursor) cursor) : Crosses p (get >>= next) cursor :=
  back

theorem crosses_move {f : Cursor → Cursor} {cursor : Cursor} (moved : cursor.Crosses p (f cursor)) :
    Crosses p (move f) cursor :=
  moved

theorem crosses_failExpecting (kind : Kind) (cursor : Cursor) :
    Crosses p (failExpecting kind : Read α) cursor :=
  Cursor.Crosses.refl p cursor

theorem crosses_step {cursor : Cursor} (kinds : ∀ kind, cursor.kind? = some kind → p kind) :
    Crosses p step cursor :=
  crosses_move (cursor.crosses_step kinds)

section Padding

variable (padding : p .padding)
include padding

theorem crosses_advance {cursor : Cursor} (kinds : ∀ kind, cursor.kind? = some kind → p kind) :
    Crosses p advance cursor :=
  crosses_move (cursor.crosses_advance padding kinds)

theorem crosses_skipPadding (cursor : Cursor) : Crosses p (move Cursor.skipPadding) cursor :=
  crosses_move (cursor.crosses_skipPadding.mono fun _ same => same ▸ padding)

theorem crosses_takeText {cursor : Cursor} (kinds : ∀ kind, cursor.kind? = some kind → p kind) :
    Crosses p takeText cursor :=
  crosses_get_bind (crosses_bind (crosses_advance padding kinds) fun _ _ _ => crosses_pure _ _)

theorem crosses_accept {kind : Kind} (accepted : p kind) (cursor : Cursor) :
    Crosses p (accept kind) cursor := by
  unfold accept
  apply crosses_get_bind
  split
  next stands =>
    refine crosses_bind (crosses_advance padding fun found here => ?_) fun _ _ _ => crosses_pure _ _
    rw [Cursor.isAt, here, beq_iff_eq, Option.some.injEq] at stands
    exact stands ▸ accepted
  next => exact crosses_pure _ _

theorem crosses_expect {kind : Kind} (expected : p kind) (cursor : Cursor) :
    Crosses p (expect kind) cursor := by
  unfold expect
  apply crosses_get_bind
  split
  next => exact crosses_failExpecting _ _
  next token rest stands =>
    split
    next same =>
      refine crosses_bind (crosses_advance padding fun found here => ?_) fun _ _ _ =>
        crosses_pure _ _
      rw [Cursor.kind?, stands] at here
      rw [← Option.some.inj here]
      exact same ▸ expected
    next => exact crosses_failExpecting _ _

end Padding

theorem crosses_further {separator : Read Bool} {item : Read α}
    (separates : ∀ cursor, Crosses p separator cursor) (items : ∀ cursor, Crosses p item cursor)
    (bound : Nat) (cursor : Cursor) : Crosses p (further separator item bound) cursor := by
  induction bound generalizing cursor with
  | zero => exact crosses_pure _ _
  | succ bound ih =>
      refine crosses_bind (separates cursor) fun found middle _ => ?_
      cases found with
      | false => exact crosses_pure _ _
      | true =>
          refine crosses_bind (items middle) fun _ behind _ => ?_
          exact crosses_bind (ih behind) fun _ _ _ => crosses_pure _ _

theorem crosses_allFurther {separator : Read Bool} {item : Read α}
    (separates : ∀ cursor, Crosses p separator cursor) (items : ∀ cursor, Crosses p item cursor)
    (cursor : Cursor) : Crosses p (allFurther separator item) cursor :=
  crosses_get_bind (crosses_further separates items _ cursor)

/-- After a failure the reader is back where it started, so only its success matters. -/
theorem crosses_attempt {read : Read α} {cursor : Cursor}
    (succeeds : ∀ value after, read cursor = .ok value after → cursor.Crosses p after) :
    Crosses p (attempt read) cursor := by
  unfold Crosses attempt
  cases run : read cursor with
  | ok value after => exact succeeds value after run
  | error failure after => exact Cursor.Crosses.refl p cursor

theorem attempt_eq_some {read : Read α} {cursor after : Cursor} {value : α}
    (run : attempt read cursor = .ok (some value) after) : read cursor = .ok value after := by
  unfold attempt at run
  cases ran : read cursor with
  | ok found behind =>
      rw [ran] at run
      cases run
      rfl
  | error failure behind =>
      rw [ran] at run
      cases run

theorem attempt_eq_none {read : Read α} {cursor after : Cursor}
    (run : attempt read cursor = .ok none after) : after = cursor := by
  unfold attempt at run
  cases ran : read cursor with
  | ok found behind =>
      rw [ran] at run
      cases run
  | error failure behind =>
      rw [ran] at run
      cases run
      rfl

end Read

end DocComment
