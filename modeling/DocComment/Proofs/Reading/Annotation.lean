import DocComment.Dialect.Reader
import DocComment.Proofs.Reading.Taking

/-!
# What reading an annotation crosses

The grammar of calls only moves forward, whether a call is read or fails
(`goesForward_payloadCall`).  A reader that goes forward never has more tokens
in front of it than before, and that bounds how deep calls are nested.
-/

namespace DocComment

open Token

namespace Read

variable {α β : Type}

/-- The reader only moves forward, wherever it starts and however it ends. -/
def GoesForward (read : Read α) : Prop :=
  ∀ cursor, Crosses (fun _ => True) read cursor

theorem GoesForward.crosses {read : Read α} (forward : GoesForward read)
    {cursor after : Cursor} {value : α}
    (run : read cursor = .ok value after) : cursor.Crosses (fun _ => True) after :=
  (forward cursor).of_ok run

/-- Behind a reader that goes forward no more tokens remain than in front of it. -/
theorem GoesForward.length_le {read : Read α} (forward : GoesForward read)
    {cursor after : Cursor} {value : α}
    (run : read cursor = .ok value after) : after.rest.length ≤ cursor.rest.length := by
  have crosses := forward.crosses run
  have nearer := crosses.index_le
  rw [Cursor.length_rest, Cursor.length_rest, crosses.tokens]
  omega

theorem goesForward_pure (value : α) : GoesForward (pure value : Read α) :=
  crosses_pure value

theorem goesForward_bind {read : Read α} {next : α → Read β} (front : GoesForward read)
    (back : ∀ value, GoesForward (next value)) : GoesForward (read >>= next) :=
  fun cursor => crosses_bind (front cursor) fun value middle _ => back value middle

theorem goesForward_get_bind {next : Cursor → Read α} (back : ∀ cursor, GoesForward (next cursor)) :
    GoesForward (get >>= next) :=
  fun cursor => crosses_get_bind (back cursor cursor)

theorem goesForward_failExpecting (kind : Kind) : GoesForward (failExpecting kind : Read α) :=
  crosses_failExpecting kind

theorem goesForward_move {f : Cursor → Cursor}
    (forward : ∀ cursor : Cursor, cursor.Crosses (fun _ => True) (f cursor)) :
    GoesForward (move f) :=
  fun cursor => crosses_move (forward cursor)

theorem goesForward_skipWhile (p : Kind → Bool) : GoesForward (move (Cursor.skipWhile p)) :=
  goesForward_move fun cursor => (cursor.crosses_skipWhile p).mono fun _ _ => trivial

theorem goesForward_step : GoesForward step :=
  goesForward_move fun cursor => cursor.crosses_step fun _ _ => trivial

theorem goesForward_advance : GoesForward advance :=
  fun _ => crosses_advance trivial fun _ _ => trivial

theorem goesForward_accept (kind : Kind) : GoesForward (accept kind) :=
  fun cursor => crosses_accept trivial trivial cursor

theorem goesForward_expect (kind : Kind) : GoesForward (expect kind) :=
  fun cursor => crosses_expect trivial trivial cursor

theorem goesForward_takeText : GoesForward takeText :=
  fun _ => crosses_takeText trivial fun _ _ => trivial

theorem goesForward_takeTokens (count : Nat) : GoesForward (takeTokens count) :=
  goesForward_get_bind fun _ => goesForward_bind
    (goesForward_move fun cursor => cursor.crosses_forward count fun _ _ => trivial)
    fun _ => goesForward_pure _

end Read

namespace Annotation

namespace Grammar

open Read

variable {naming : Naming} {call : Text → Read Annotation}

theorem goesForward_literal : GoesForward literal :=
  goesForward_get_bind fun _ => goesForward_bind (goesForward_takeTokens _) fun _ =>
    goesForward_pure _

theorem goesForward_writtenName : GoesForward writtenName := by
  refine goesForward_get_bind fun _ => goesForward_bind goesForward_step fun _ =>
    goesForward_get_bind fun _ => ?_
  split
  next =>
    refine goesForward_bind goesForward_step fun _ => ?_
    exact goesForward_bind (goesForward_skipWhile _) fun _ => goesForward_pure _
  next => exact goesForward_bind (goesForward_skipWhile _) fun _ => goesForward_pure _

section Calls

variable (calls : ∀ name, GoesForward (call name))
include calls

theorem goesForward_nestedCall : GoesForward (nestedCall naming call) := by
  refine goesForward_get_bind fun _ => goesForward_bind goesForward_writtenName fun written => ?_
  exact goesForward_bind (calls _) fun _ => goesForward_get_bind fun _ => goesForward_pure _

theorem goesForward_value : GoesForward (value naming call) := by
  refine goesForward_get_bind fun cursor => ?_
  have nested : GoesForward (do return .nested (← nestedCall naming call) : Read ArgumentValue) :=
    goesForward_bind (goesForward_nestedCall calls) fun _ => goesForward_pure _
  have plain : GoesForward (do return .literal (← literal) : Read ArgumentValue) :=
    goesForward_bind goesForward_literal fun _ => goesForward_pure _
  split
  next => exact goesForward_bind goesForward_takeText fun _ => goesForward_pure _
  next => exact nested
  next =>
    split
    next => exact nested
    next => exact plain
  next => exact plain

theorem goesForward_argument (defaultKey : Text) (before : List (Argument ArgumentValue)) :
    GoesForward (argument naming call defaultKey before) := by
  refine goesForward_get_bind fun cursor => ?_
  split
  next =>
    refine goesForward_bind goesForward_takeText fun _ =>
      goesForward_bind (goesForward_expect _) fun _ => ?_
    refine goesForward_bind (goesForward_skipWhile _) fun _ => ?_
    exact goesForward_bind (goesForward_value calls) fun _ => goesForward_pure _
  next => exact goesForward_bind (goesForward_value calls) fun _ => goesForward_pure _

theorem goesForward_arguments (defaultKey : Text) (bound : Nat)
    (before : List (Argument ArgumentValue)) :
    GoesForward (arguments naming call defaultKey bound before) := by
  induction bound generalizing before with
  | zero => exact goesForward_pure _
  | succ bound ih =>
      refine goesForward_get_bind fun cursor => ?_
      split
      next => exact goesForward_pure _
      next =>
        refine goesForward_bind (goesForward_argument calls _ _) fun next => ?_
        refine goesForward_bind (goesForward_skipWhile _) fun _ =>
          goesForward_bind (goesForward_accept _) ?_
        intro separated
        split
        next => exact goesForward_bind (goesForward_skipWhile _) fun _ => ih _
        next => exact goesForward_pure _

end Calls

theorem goesForward_call (depth : Nat) (name : Text) :
    GoesForward (Grammar.call naming depth name) := by
  induction depth generalizing name with
  | zero => exact goesForward_failExpecting _
  | succ depth ih =>
      refine goesForward_get_bind fun cursor => ?_
      dsimp only
      split
      next =>
        refine goesForward_bind goesForward_advance fun _ =>
          goesForward_bind (goesForward_skipWhile _) ?_
        refine fun _ => goesForward_get_bind fun _ => ?_
        refine goesForward_bind (goesForward_arguments ih _ _ _) fun _ => ?_
        exact goesForward_bind (goesForward_expect _) fun _ => goesForward_pure _
      next => exact goesForward_pure _

theorem goesForward_payloadCall (name payload : Text) :
    GoesForward (payloadCall naming name payload) := by
  refine goesForward_bind (goesForward_skipWhile _) fun _ => goesForward_get_bind fun cursor => ?_
  have finished (written : Option Text) (depth : Nat) : GoesForward (do
      let read ← Grammar.call naming depth name
      return some { read with writtenName := written, raw := Text.trim payload } :
      Read (Option Annotation)) :=
    goesForward_bind (goesForward_call _ _) fun _ => goesForward_pure _
  dsimp only
  split
  next => exact goesForward_pure _
  next => exact finished none _
  next =>
    split
    next => exact goesForward_bind goesForward_step fun _ => finished _ _
    next => exact goesForward_pure _
  next => exact goesForward_pure _

end Grammar

end Annotation

end DocComment
