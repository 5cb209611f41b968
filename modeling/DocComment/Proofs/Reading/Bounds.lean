import DocComment.Proofs.Reading.Annotation
import DocComment.Proofs.Reading.Transplant

/-!
# No bound cuts a reading short

The loops and the nested grammars of the reader are bounded by the count of the
tokens that remain.  Every round and every level takes a token, so a higher
bound changes nothing (`Dialect.unbounded_of_movesForward`): the bounds only
show that reading comes to an end.
-/

namespace DocComment

open Token

namespace Read

variable {α β : Type}

/-- From the needed bound on a higher one changes nothing. -/
def Suffices (need : Cursor → Nat) (read : Nat → Read α) : Prop :=
  ∀ cursor bound, need cursor ≤ bound → read bound cursor = read (need cursor) cursor

theorem suffices_of_succ {need : Cursor → Nat} {read : Nat → Read α}
    (step : ∀ bound cursor, need cursor ≤ bound → read (bound + 1) cursor = read bound cursor) :
    Suffices need read := by
  intro cursor bound enough
  induction enough with
  | refl => rfl
  | step enough ih => rw [step _ cursor enough, ih]

/-- How many tokens remain. -/
def remaining (cursor : Cursor) : Nat :=
  cursor.rest.length

/-- One bound more than there are tokens, for a round that takes none. -/
def remainingAndOne (cursor : Cursor) : Nat :=
  remaining cursor + 1

theorem kind?_of_remaining {cursor : Cursor} (none : remaining cursor ≤ 0) :
    cursor.kind? = Option.none := by
  rw [Cursor.kind?, List.length_eq_zero_iff.mp (Nat.le_zero.mp none)]
  rfl

/-- Behind a token fewer tokens remain. -/
theorem remaining_step_lt {cursor : Cursor} {kind : Kind} (stands : cursor.kind? = some kind) :
    remaining cursor.step < remaining cursor := by
  have beyond := Cursor.index_step stands
  have within := cursor.step.index_le_length
  rw [Cursor.tokens_step] at within
  rw [remaining, remaining, Cursor.length_rest, Cursor.length_rest, Cursor.tokens_step]
  omega

/-- Behind a token and the padding that follows it fewer tokens remain. -/
theorem remaining_advance_lt {cursor : Cursor} {kind : Kind} (stands : cursor.kind? = some kind) :
    remaining cursor.advance < remaining cursor :=
  Nat.lt_of_le_of_lt ((goesForward_skipWhile (· == .padding)).length_le (run_move _ cursor.step))
    (remaining_step_lt stands)

/-! ## Readers that do the same -/

theorem run_bind_congr {first second : Read α} {next other : α → Read β} {cursor : Cursor}
    (front : first cursor = second cursor)
    (back : ∀ value after, second cursor = .ok value after → next value after = other value after) :
    (first >>= next) cursor = (second >>= other) cursor := by
  cases run : second cursor with
  | ok value after =>
      rw [run_bind_of_ok (front.trans run), run_bind_of_ok run]
      exact back value after run
  | error failure after => rw [run_bind_of_error (front.trans run), run_bind_of_error run]

/-- With fewer than some count of tokens in front of them two readers do the same. -/
structure Coincide (count : Nat) (first second : Read α) : Prop where
  same : ∀ cursor, remaining cursor < count → first cursor = second cursor
  forward : GoesForward second

section Coincide

variable {count : Nat} {first second : Read α} {next other : α → Read β}

theorem coincide_refl (forward : GoesForward first) : Coincide count first first :=
  ⟨fun _ _ => rfl, forward⟩

theorem coincide_pure (value : α) : Coincide count (pure value) (pure value) :=
  coincide_refl (goesForward_pure value)

theorem coincide_bind (front : Coincide count first second)
    (back : ∀ value, Coincide count (next value) (other value)) :
    Coincide count (first >>= next) (second >>= other) where
  same cursor near := run_bind_congr (front.same cursor near) fun value after run =>
    (back value).same after (Nat.lt_of_le_of_lt (front.forward.length_le run) near)
  forward := goesForward_bind front.forward fun value => (back value).forward

theorem coincide_get_bind {next other : Cursor → Read α}
    (back : ∀ cursor, Coincide count (next cursor) (other cursor)) :
    Coincide count (get >>= next) (get >>= other) where
  same cursor near := (back cursor).same cursor near
  forward := goesForward_get_bind fun cursor => (back cursor).forward

theorem coincide_ite {test : Prop} [Decidable test] {first' second' : Read α}
    (yes : Coincide count first second) (no : Coincide count first' second') :
    Coincide count (if test then first else first') (if test then second else second') := by
  split
  next => exact yes
  next => exact no

end Coincide

/-! ## Lists -/

/-- The separator moves over a token, or it stays where it is. -/
def IsSeparator (separator : Read Bool) : Prop :=
  ∀ cursor, separator cursor = .ok false cursor ∨
    ∃ after, separator cursor = .ok true after ∧ cursor.Crosses (fun _ => True) after ∧
      remaining after < remaining cursor

theorem IsSeparator.goesForward {separator : Read Bool} (separates : IsSeparator separator) :
    GoesForward separator := by
  intro cursor
  unfold Crosses
  rcases separates cursor with stays | ⟨after, run, crosses, -⟩
  · rw [stays]
    exact Cursor.Crosses.refl _ _
  · rw [run]
    exact crosses

/-- Where a separator is taken fewer tokens remain, and elsewhere a reader stops. -/
theorem IsSeparator.run_congr {separator : Read Bool} (separates : IsSeparator separator)
    {cursor : Cursor} {more more' stop : Read α}
    (same : ∀ after, remaining after < remaining cursor → more after = more' after) :
    (do if ← separator then more else stop) cursor =
      (do if ← separator then more' else stop) cursor := by
  rcases separates cursor with stays | ⟨after, run, -, shorter⟩
  · rw [run_bind_of_ok stays, run_bind_of_ok stays]
    rfl
  · rw [run_bind_of_ok run, run_bind_of_ok run]
    exact same after shorter

/-- A separator that is asked for by a test of the cursor. -/
theorem isSeparator_of_test {separator : Read Bool} (test : Cursor → Bool)
    (stands : ∀ cursor, test cursor = true → ∃ kind, cursor.kind? = some kind)
    (run : ∀ cursor, separator cursor =
      if test cursor then .ok true cursor.advance else .ok false cursor) :
    IsSeparator separator := by
  intro cursor
  rw [run]
  cases found : test cursor with
  | false => exact Or.inl rfl
  | true =>
      obtain ⟨kind, here⟩ := stands cursor found
      exact Or.inr ⟨_, rfl, cursor.crosses_advance trivial fun _ _ => trivial,
        remaining_advance_lt here⟩

theorem isSeparator_accept (kind : Kind) : IsSeparator (accept kind) := by
  refine isSeparator_of_test (Cursor.isAt kind) (fun _ stands => ⟨kind, beq_iff_eq.mp stands⟩)
    fun cursor => ?_
  rw [run_accept, Cursor.accept]
  cases cursor.isAt kind <;> rfl

theorem isSeparator_acceptIntersection : IsSeparator TypeExpr.Grammar.acceptIntersection := by
  refine isSeparator_of_test TypeExpr.Grammar.isAtIntersection (fun cursor stands => ?_)
    fun cursor => ?_
  · exact ⟨.ampersand, beq_iff_eq.mp (Bool.and_eq_true_iff.mp stands).1⟩
  · rw [TypeExpr.Grammar.acceptIntersection, run_get_bind]
    split <;> rfl

/-- The members of a list are no more than the tokens that remain. -/
theorem suffices_further {separator : Read Bool} {item : Read α} (separates : IsSeparator separator)
    (items : GoesForward item) : Suffices remaining (further separator item) := by
  refine suffices_of_succ fun bound => ?_
  induction bound with
  | zero =>
      intro cursor enough
      rcases separates cursor with stays | ⟨after, -, -, shorter⟩
      · rw [further, further, run_bind_of_ok stays]
        rfl
      · omega
  | succ bound ih =>
      intro cursor enough
      rw [further, further]
      refine separates.run_congr fun after shorter =>
        run_bind_congr rfl fun value middle taken => ?_
      have nearer : remaining middle ≤ remaining after := items.length_le taken
      exact run_bind_congr (ih middle (by omega)) fun _ _ _ => rfl

theorem coincide_allFurther {count : Nat} {separator : Read Bool} {item another : Read α}
    (separates : GoesForward separator) (items : Coincide count item another) :
    Coincide count (allFurther separator item) (allFurther separator another) := by
  refine coincide_get_bind fun cursor => ?_
  generalize cursor.rest.length = bound
  induction bound with
  | zero => exact coincide_pure _
  | succ bound ih =>
      refine coincide_bind (coincide_refl separates) fun found => coincide_ite ?_ (coincide_pure _)
      exact coincide_bind items fun _ => coincide_bind ih fun _ => coincide_pure _

end Read

/-! ## Types -/

namespace TypeExpr.Grammar

open Read

theorem StaysWithin.goesForward {α : Type} {read : Read α} (within : StaysWithin read) :
    GoesForward read :=
  fun cursor => (within cursor).mono fun _ _ => trivial

/-- Every pair of brackets takes two tokens. -/
theorem suffices_brackets (type : TypeExpr) :
    Suffices remaining fun bound => brackets bound type := by
  refine suffices_of_succ fun bound => ?_
  induction bound generalizing type with
  | zero =>
      intro cursor enough
      have stands : isAtBrackets cursor = false := by
        rw [isAtBrackets, Cursor.isAt, kind?_of_remaining enough]
        rfl
      unfold brackets
      rw [run_get_bind, stands]
      rfl
  | succ bound ih =>
      intro cursor enough
      unfold brackets
      rw [run_get_bind, run_get_bind]
      split
      next stands =>
        refine run_bind_congr rfl fun _ middle moved => run_bind_congr rfl fun _ after advanced =>
          ih _ after ?_
        cases moved
        have first : cursor.isAt .squareOpen = true := by
          rw [isAtBrackets, Bool.and_eq_true, Bool.and_eq_true] at stands
          exact stands.1.1
        have shorter := remaining_step_lt (beq_iff_eq.mp first)
        have nearer : remaining after ≤ remaining cursor.step :=
          goesForward_advance.length_le advanced
        omega
      next => rfl

section Parts

variable {count : Nat} {first second : Read TypeExpr} (atoms : Coincide count first second)
include atoms

theorem coincide_postfixType : Coincide count (postfixType first) (postfixType second) :=
  coincide_bind atoms fun type => coincide_get_bind fun _ =>
    coincide_refl (staysWithin_brackets _ type).goesForward

theorem coincide_typeWith : Coincide count (typeWith first) (typeWith second) := by
  have members := coincide_postfixType atoms
  refine coincide_bind members fun type => coincide_get_bind fun cursor => coincide_ite ?_ ?_
  · exact coincide_bind (coincide_allFurther (goesForward_accept _) members) fun _ =>
      coincide_pure _
  · refine coincide_get_bind fun cursor => coincide_ite ?_ (coincide_pure _)
    exact coincide_bind (coincide_allFurther isSeparator_acceptIntersection.goesForward members)
        fun _ =>
      coincide_pure _

theorem coincide_callableParam : Coincide count (callableParam first) (callableParam second) := by
  refine coincide_bind atoms fun type =>
    coincide_bind (coincide_refl (goesForward_accept _)) fun _ => ?_
  refine coincide_bind (coincide_refl (goesForward_accept _)) fun _ => ?_
  exact coincide_bind (coincide_refl staysWithin_acceptVariable.goesForward) fun _ =>
    coincide_pure _

theorem coincide_callableParams :
    Coincide count (callableParams first) (callableParams second) := by
  have items := coincide_callableParam atoms
  refine coincide_get_bind fun cursor => coincide_ite (coincide_pure _) ?_
  refine coincide_bind items fun param => ?_
  exact coincide_bind (coincide_allFurther (goesForward_accept _) items) fun _ => coincide_pure _

theorem coincide_shapeItem : Coincide count (shapeItem first) (shapeItem second) := by
  refine coincide_get_bind fun cursor => coincide_ite ?_ ?_
  · refine coincide_bind (coincide_refl goesForward_takeText) fun key => ?_
    refine coincide_bind (coincide_refl (goesForward_accept _)) fun _ => ?_
    refine coincide_bind (coincide_refl (goesForward_expect _)) fun _ => ?_
    exact coincide_bind atoms fun _ => coincide_pure _
  · exact coincide_bind atoms fun _ => coincide_pure _

theorem coincide_shapeItems (bound : Nat) :
    Coincide count (shapeItems first bound) (shapeItems second bound) := by
  induction bound with
  | zero => exact coincide_pure _
  | succ bound ih =>
      refine coincide_get_bind fun cursor => coincide_ite (coincide_pure _) ?_
      refine coincide_bind (coincide_shapeItem atoms) fun item => ?_
      refine coincide_bind (coincide_refl (goesForward_accept _)) fun separated => ?_
      exact coincide_ite (coincide_bind ih fun _ => coincide_pure _) (coincide_pure _)

end Parts

/-- Every item of a shape but the last one takes a comma. -/
theorem suffices_shapeItems {type : Read TypeExpr} (types : GoesForward type) :
    Suffices remainingAndOne (shapeItems type) := by
  refine suffices_of_succ fun bound => ?_
  induction bound with
  | zero => exact fun cursor enough => absurd enough (Nat.not_succ_le_zero _)
  | succ bound ih =>
      intro cursor enough
      rw [shapeItems, shapeItems, run_get_bind, run_get_bind]
      split
      next => rfl
      next =>
        have items : GoesForward (shapeItem type) :=
          (coincide_shapeItem (@coincide_refl _ 0 _ types)).forward
        refine run_bind_congr rfl fun item middle taken => ?_
        have nearer : remaining middle ≤ remaining cursor := items.length_le taken
        refine (isSeparator_accept .comma).run_congr fun after shorter =>
          run_bind_congr (ih after ?_) fun _ _ _ => rfl
        rw [remainingAndOne] at enough ⊢
        omega

section Atoms

variable {count : Nat} {first second : Read TypeExpr}

/-- Behind the name of a type fewer tokens remain for its parts. -/
theorem namedType_eq (atoms : Coincide count first second) {cursor : Cursor}
    (here : cursor.kind? = some .name)
    (near : remaining cursor < count + 1) : namedType first cursor = namedType second cursor := by
  have types := coincide_typeWith atoms
  rw [namedType, namedType, run_get_bind, run_get_bind]
  refine run_bind_congr rfl fun _ middle moved => ?_
  cases moved
  have shorter := remaining_step_lt here
  refine (?_ : Coincide count _ _).same cursor.step (by omega)
  refine coincide_get_bind fun cursor => coincide_ite ?_ (coincide_ite ?_ (coincide_ite ?_ ?_))
  · refine coincide_bind (coincide_refl goesForward_advance) fun _ =>
      coincide_bind types fun type => ?_
    refine coincide_bind (coincide_allFurther (goesForward_accept _) types) fun others => ?_
    exact coincide_bind (coincide_refl (goesForward_expect _)) fun _ => coincide_pure _
  · refine coincide_bind (coincide_refl goesForward_advance) fun _ => ?_
    refine coincide_bind (coincide_callableParams types) fun params => ?_
    refine coincide_bind (coincide_refl (goesForward_expect _)) fun _ => ?_
    refine coincide_bind (coincide_refl (goesForward_expect _)) fun _ => ?_
    exact coincide_bind (coincide_postfixType atoms) fun _ => coincide_pure _
  · refine coincide_bind (coincide_refl goesForward_advance) fun _ => ?_
    refine coincide_bind (coincide_shapeItems types _) fun items => ?_
    exact coincide_bind (coincide_refl (goesForward_expect _)) fun _ => coincide_pure _
  · exact coincide_bind (coincide_refl (goesForward_skipWhile _)) fun _ => coincide_pure _

/-- With fewer tokens than levels another level changes nothing. -/
theorem coincide_atom (depth : Nat) : Coincide depth (atom (depth + 1)) (atom depth) := by
  refine ⟨?_, (staysWithin_atom depth).goesForward⟩
  induction depth with
  | zero => exact fun cursor near => absurd near (Nat.not_lt_zero _)
  | succ depth ih =>
      intro cursor near
      have inner : Coincide depth (atom (depth + 1)) (atom depth) :=
        ⟨ih, (staysWithin_atom depth).goesForward⟩
      have behind {kind : Kind} (here : cursor.kind? = some kind) :
          remaining cursor.advance < depth := by
        have shorter := remaining_advance_lt here
        omega
      unfold atom
      rw [run_get_bind, run_get_bind]
      cases here : cursor.kind? with
      | none => rfl
      | some kind =>
          -- Only a nullable atom, a type in parentheses and a name have a type inside.
          cases kind
          case question =>
            exact (coincide_bind inner fun _ => coincide_pure _).same cursor.advance (behind here)
          case roundOpen =>
            refine (coincide_bind (coincide_typeWith inner) fun _ => ?_).same cursor.advance
              (behind here)
            exact coincide_bind (coincide_refl (goesForward_expect _)) fun _ => coincide_pure _
          case name => exact namedType_eq inner here near
          all_goals rfl

/-- Every level of a nested type takes a token. -/
theorem suffices_atom : Suffices remainingAndOne atom :=
  suffices_of_succ fun depth cursor enough => (coincide_atom depth).same cursor enough

end Atoms

end TypeExpr.Grammar

/-! ## Descriptions -/

namespace Payload.Grammar

open Read

/-- Every line that continues a description takes its line break. -/
theorem suffices_furtherLines : Suffices remaining furtherLines := by
  refine suffices_of_succ fun bound => ?_
  induction bound with
  | zero =>
      intro cursor enough
      have stopped : continues cursor = false := by
        rw [continues, Cursor.isAt, kind?_of_remaining enough]
        rfl
      rw [run_furtherLines_of_not _ stopped, run_furtherLines_of_not _ stopped]
  | succ bound ih =>
      intro cursor enough
      cases more : continues cursor with
      | false => rw [run_furtherLines_of_not _ more, run_furtherLines_of_not _ more]
      | true =>
          rw [run_furtherLines_of_continues _ more, run_furtherLines_of_continues _ more]
          have shorter := remaining_step_lt (isAt_lineBreak_of_continues more)
          have nearer : remaining cursor.step.toLineEnd ≤ remaining cursor.step :=
            (goesForward_skipWhile Cursor.isInLine).length_le (run_move _ cursor.step)
          exact run_bind_congr (ih _ (by omega)) fun _ _ _ => rfl

end Payload.Grammar

/-! ## Annotations -/

namespace Annotation.Grammar

open Read

variable {naming : Naming}

section Calls

variable {count : Nat} {first second : Text → Read Annotation}
  (calls : ∀ name, Coincide count (first name) (second name))
include calls

theorem coincide_nestedCall :
    Coincide count (nestedCall naming first) (nestedCall naming second) := by
  refine coincide_get_bind fun cursor => coincide_bind (coincide_refl goesForward_writtenName)
    fun written => ?_
  exact coincide_bind (calls _) fun _ => coincide_get_bind fun _ => coincide_pure _

theorem coincide_value : Coincide count (value naming first) (value naming second) := by
  refine coincide_get_bind fun cursor => ?_
  have nested : Coincide count (do return .nested (← nestedCall naming first) : Read ArgumentValue)
      (do return .nested (← nestedCall naming second)) :=
    coincide_bind (coincide_nestedCall calls) fun _ => coincide_pure _
  have plain : Coincide count (do return .literal (← literal) : Read ArgumentValue)
      (do return .literal (← literal)) :=
    coincide_refl (goesForward_bind goesForward_literal fun _ => goesForward_pure _)
  split
  next => exact coincide_refl (goesForward_bind goesForward_takeText fun _ => goesForward_pure _)
  next => exact nested
  next => exact coincide_ite nested plain
  next => exact plain

theorem coincide_argument (defaultKey : Text) (before : List (Argument ArgumentValue)) :
    Coincide count (argument naming first defaultKey before)
      (argument naming second defaultKey before) := by
  have values : Coincide count (value naming first) (value naming second) := coincide_value calls
  refine coincide_get_bind fun cursor =>
    coincide_ite ?_ (coincide_bind values fun _ => coincide_pure _)
  refine coincide_bind (coincide_refl goesForward_takeText) fun key => ?_
  refine coincide_bind (coincide_refl (goesForward_expect _)) fun _ => ?_
  refine coincide_bind (coincide_refl (goesForward_skipWhile _)) fun _ => ?_
  exact coincide_bind values fun _ => coincide_pure _

theorem coincide_arguments (defaultKey : Text) (bound : Nat)
    (before : List (Argument ArgumentValue)) :
    Coincide count (arguments naming first defaultKey bound before)
      (arguments naming second defaultKey bound before) := by
  induction bound generalizing before with
  | zero => exact coincide_pure _
  | succ bound ih =>
      refine coincide_get_bind fun cursor => coincide_ite (coincide_pure _) ?_
      refine coincide_bind (coincide_argument calls _ _) fun next => ?_
      refine coincide_bind (coincide_refl (goesForward_skipWhile _)) fun _ => ?_
      refine coincide_bind (coincide_refl (goesForward_accept _)) fun separated => ?_
      exact coincide_ite (coincide_bind (coincide_refl (goesForward_skipWhile _)) fun _ => ih _)
        (coincide_pure _)

end Calls

/-- Every argument but the last one takes a comma. -/
theorem suffices_arguments {call : Text → Read Annotation} (calls : ∀ name, GoesForward (call name))
    (defaultKey : Text) (before : List (Argument ArgumentValue)) :
    Suffices remainingAndOne fun bound => arguments naming call defaultKey bound before := by
  refine suffices_of_succ fun bound => ?_
  induction bound generalizing before with
  | zero => exact fun cursor enough => absurd enough (Nat.not_succ_le_zero _)
  | succ bound ih =>
      intro cursor enough
      unfold arguments
      rw [run_get_bind, run_get_bind]
      split
      next => rfl
      next =>
        refine run_bind_congr rfl fun next taken read =>
          run_bind_congr rfl fun _ middle skipped => ?_
        have near : remaining taken ≤ remaining cursor :=
          (goesForward_argument calls _ _).length_le read
        have nearer : remaining middle ≤ remaining taken :=
          (goesForward_skipWhile _).length_le skipped
        refine (isSeparator_accept .comma).run_congr fun after shorter =>
          run_bind_congr rfl fun _ last skipped => ih _ last ?_
        have nearest : remaining last ≤ remaining after :=
          (goesForward_skipWhile _).length_le skipped
        rw [remainingAndOne] at enough ⊢
        omega

/-- With fewer tokens than levels another level changes nothing. -/
theorem coincide_call (depth : Nat) (name : Text) :
    Coincide depth (call naming (depth + 1) name) (call naming depth name) := by
  refine ⟨?_, goesForward_call depth name⟩
  induction depth generalizing name with
  | zero => exact fun cursor near => absurd near (Nat.not_lt_zero _)
  | succ depth ih =>
      intro cursor near
      have inner (name : Text) :
          Coincide depth (call naming (depth + 1) name) (call naming depth name) :=
        ⟨ih name, goesForward_call depth name⟩
      unfold call
      rw [run_get_bind, run_get_bind]
      dsimp only
      split
      next opens =>
        have shorter := remaining_advance_lt (beq_iff_eq.mp opens)
        rw [run_bind_of_ok (run_advance cursor), run_bind_of_ok (run_advance cursor)]
        refine (?_ : Coincide depth _ _).same cursor.advance (by omega)
        refine coincide_bind (coincide_refl (goesForward_skipWhile _)) fun _ =>
          coincide_get_bind fun _ => ?_
        refine coincide_bind (coincide_arguments inner _ _ _) fun known => ?_
        exact coincide_bind (coincide_refl (goesForward_expect _)) fun _ => coincide_pure _
      next => rfl

/-- Every level of a nested call takes a parenthesis. -/
theorem suffices_call (name : Text) :
    Suffices remainingAndOne fun depth => call naming depth name :=
  suffices_of_succ fun depth cursor enough => (coincide_call depth name).same cursor enough

end Annotation.Grammar

/-! ## Entries -/

namespace Dialect

open Read

variable {dialect : Dialect} {cursor after : Cursor} {found : Entry}

/-- Behind an entry no more tokens remain than in front of it. -/
theorem Stands.remaining_le {span : Span} (stands : Stands cursor after found span) :
    remaining after ≤ remaining cursor := by
  have low := span.start_le_stop
  have high := stands.stop_le
  rw [stands.start] at low
  rw [remaining, remaining, Cursor.length_rest, Cursor.length_rest, stands.tokens]
  omega

/-- An entry behind a line break takes the line break at least. -/
theorem remaining_lt_of_entry (forward : dialect.MovesForward)
    (broken : cursor.isAt .lineBreak = true)
    (run : entry dialect cursor.advance = .ok found after) :
    remaining after < remaining cursor := by
  obtain ⟨span, stands⟩ := stands_of_entry forward run
  exact Nat.lt_of_le_of_lt stands.remaining_le (remaining_advance_lt (beq_iff_eq.mp broken))

/-- Prose that starts within a line takes a token at least. -/
theorem remaining_lt_of_prose (within : cursor.isAtLineEnd = false)
    (run : prose cursor = .ok found after) :
    remaining after < remaining cursor := by
  obtain ⟨rfl, -, -, -⟩ := prose_eq_ok run
  obtain ⟨passed, rest⟩ := cursor
  cases rest with
  | nil => cases within
  | cons token rest =>
      have inside : Cursor.isInLine token.kind = true := by
        by_contra other
        have stops := Cursor.isInLine_eq_false_iff.mp (Bool.eq_false_iff.mpr other)
        have ends : (⟨passed, token :: rest⟩ : Cursor).isAtLineEnd = true := by
          refine Cursor.isAtLineEnd_iff.mpr fun kind here => ?_
          cases here
          exact stops
        exact Bool.false_ne_true (within.symm.trans ends)
      change (List.dropWhile (fun token => Cursor.isInLine token.kind) (token :: rest)).length <
        (token :: rest).length
      rw [List.dropWhile_cons_of_pos (by exact inside)]
      exact Nat.lt_succ_of_le (List.length_dropWhile_le _ _)

/-- Every round of the loop over the lines takes a token, wherever a rule has stopped. -/
theorem suffices_furtherEntries (forward : dialect.MovesForward) :
    Suffices remainingAndOne (furtherEntries dialect) := by
  refine suffices_of_succ fun bound => ?_
  induction bound with
  | zero => exact fun cursor enough => absurd enough (Nat.not_succ_le_zero _)
  | succ bound ih =>
      intro cursor enough
      rw [remainingAndOne] at enough
      have later {after : Cursor} (shorter : remaining after < remaining cursor) (next : Entry) :
          (do return next :: (← furtherEntries dialect (bound + 1)) : Read (List Entry)) after =
            (do return next :: (← furtherEntries dialect bound)) after :=
        run_bind_congr (ih after (by rw [remainingAndOne]; omega)) fun _ _ _ => rfl
      unfold furtherEntries
      rw [run_get_bind, run_get_bind]
      split
      next => rfl
      next opens =>
        cases broken : cursor.isAt .lineBreak with
        | true =>
            have accepted := run_accept .lineBreak cursor
            rw [broken, Cursor.accept_of_isAt broken] at accepted
            rw [run_bind_of_ok accepted, run_bind_of_ok accepted, if_pos rfl, if_pos rfl,
              run_get_bind, run_get_bind]
            split
            next => rfl
            next =>
              exact run_bind_congr rfl fun next after taken =>
                later (remaining_lt_of_entry forward broken taken) next
        | false =>
            have within : cursor.isAtLineEnd = false := by
              rw [Cursor.isAtLineEnd_eq, broken, Bool.or_false]
              exact Bool.eq_false_iff.mpr opens
            rw [run_bind_of_ok (run_accept_of_not_isAt broken),
              run_bind_of_ok (run_accept_of_not_isAt broken), if_neg Bool.false_ne_true,
              if_neg Bool.false_ne_true]
            exact run_bind_congr rfl fun next after taken =>
              later (remaining_lt_of_prose within taken) next

/-- No loop of a reader and no depth of its grammars is cut short by its bound. -/
structure Unbounded (dialect : Dialect) : Prop where
  entries : Suffices remainingAndOne (furtherEntries dialect)
  lines : Suffices remaining Payload.Grammar.furtherLines
  types : Suffices remainingAndOne TypeExpr.Grammar.atom
  brackets : ∀ type, Suffices remaining fun bound => TypeExpr.Grammar.brackets bound type
  members : ∀ separator ∈ [accept .bar, TypeExpr.Grammar.acceptIntersection], ∀ depth,
    Suffices remaining (further separator (TypeExpr.Grammar.postfixType (TypeExpr.Grammar.atom depth)))
  parameters : ∀ depth, Suffices remaining (further (accept .comma)
    (TypeExpr.Grammar.callableParam (TypeExpr.Grammar.typeWith (TypeExpr.Grammar.atom depth))))
  typeArguments : ∀ depth, Suffices remaining
    (further (accept .comma) (TypeExpr.Grammar.typeWith (TypeExpr.Grammar.atom depth)))
  shapes : ∀ depth, Suffices remainingAndOne
    (TypeExpr.Grammar.shapeItems (TypeExpr.Grammar.typeWith (TypeExpr.Grammar.atom depth)))
  calls : ∀ name, Suffices remainingAndOne fun depth => Annotation.Grammar.call dialect.naming depth name
  arguments : ∀ depth defaultKey before, Suffices remainingAndOne fun bound =>
    Annotation.Grammar.arguments dialect.naming ( Annotation.Grammar.call dialect.naming depth) defaultKey bound before

open TypeExpr.Grammar in
/-- Reading comes to an end by itself when no rule moves back. -/
theorem unbounded_of_movesForward (forward : dialect.MovesForward) : dialect.Unbounded where
  entries := suffices_furtherEntries forward
  lines := Payload.Grammar.suffices_furtherLines
  types := suffices_atom
  brackets := suffices_brackets
  members separator mem depth := by
    have separates : IsSeparator separator := by
      rcases List.mem_cons.mp mem with rfl | mem
      · exact isSeparator_accept _
      · rw [List.mem_singleton.mp mem]
        exact isSeparator_acceptIntersection
    exact suffices_further separates (staysWithin_postfixType (staysWithin_atom depth)).goesForward
  parameters depth := suffices_further (isSeparator_accept _)
    (staysWithin_callableParam (staysWithin_typeWith (staysWithin_atom depth))).goesForward
  typeArguments depth := suffices_further (isSeparator_accept _)
    (staysWithin_typeWith (staysWithin_atom depth)).goesForward
  shapes depth := suffices_shapeItems (staysWithin_typeWith (staysWithin_atom depth)).goesForward
  calls := Annotation.Grammar.suffices_call
  arguments depth :=
    Annotation.Grammar.suffices_arguments ( Annotation.Grammar.goesForward_call depth)

end Dialect

end DocComment
