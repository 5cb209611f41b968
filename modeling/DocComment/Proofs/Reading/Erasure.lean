import DocComment.Payload.Reader
import DocComment.Proofs.Reading.Taking

/-!
# Erasing unknown text

Readers of types and of subjects do not look at the text of tokens of no known kind.
With these texts erased they give the same values and fail at the same places
(`Payload.Grammar.erases_subject`).
-/

namespace DocComment

namespace Token

/-- A token without its text, if its kind is not known. -/
def erase (token : Token) : Token :=
  if token.kind = .other then ⟨.other, []⟩ else token

variable {token : Token}

theorem erase_of_known (known : token.kind ≠ .other) : token.erase = token :=
  if_neg known

@[simp]
theorem kind_erase (token : Token) : token.erase.kind = token.kind := by
  unfold erase
  split
  next unknown => exact unknown.symm
  next => rfl

end Token

namespace Cursor

open Token

/-- A cursor in front of and behind erased tokens. -/
def erase (cursor : Cursor) : Cursor :=
  ⟨cursor.passed.map Token.erase, cursor.rest.map Token.erase⟩

variable (cursor : Cursor) (kind : Kind)

@[simp]
theorem kind?_erase : cursor.erase.kind? = cursor.kind? := by
  rw [kind?, kind?, erase, List.head?_map, Option.map_map]
  cases cursor.rest.head? with
  | none => rfl
  | some token => exact congrArg some token.kind_erase

@[simp]
theorem isAt_erase : cursor.erase.isAt kind = cursor.isAt kind := by
  rw [isAt, isAt, kind?_erase]

@[simp]
theorem nextKind?_erase : cursor.erase.nextKind? = cursor.nextKind? := by
  rw [nextKind?, nextKind?, erase, ← List.map_tail, List.head?_map, Option.map_map]
  cases cursor.rest.tail.head? with
  | none => rfl
  | some token => exact congrArg some token.kind_erase

@[simp]
theorem isAfterPadding_erase : cursor.erase.isAfterPadding = cursor.isAfterPadding := by
  obtain ⟨passed, rest⟩ := cursor
  cases passed with
  | nil => rfl
  | cons token passed => exact congrArg (· == Kind.padding) token.kind_erase

@[simp]
theorem isAtLineEnd_erase : cursor.erase.isAtLineEnd = cursor.isAtLineEnd := by
  rw [isAtLineEnd, isAtLineEnd, kind?_erase]

@[simp]
theorem isAtEnd_erase : cursor.erase.isAtEnd = cursor.isAtEnd :=
  List.isEmpty_map

@[simp]
theorem length_rest_erase : cursor.erase.rest.length = cursor.rest.length :=
  List.length_map _

theorem text_erase (known : cursor.kind? ≠ some .other) : cursor.erase.text = cursor.text := by
  obtain ⟨passed, rest⟩ := cursor
  cases rest with
  | nil => rfl
  | cons token rest =>
    exact congrArg Token.text (erase_of_known fun unknown => known (congrArg some unknown))

@[simp]
theorem skipWhile_erase (p : Kind → Bool) :
    cursor.erase.skipWhile p = (cursor.skipWhile p).erase := by
  have same : (fun token : Token => p token.kind) ∘ Token.erase = fun token => p token.kind :=
    funext fun token => congrArg p token.kind_erase
  rw [skipWhile, skipWhile, erase, erase, List.takeWhile_map, List.dropWhile_map, same,
    List.map_append, List.map_reverse]

@[simp]
theorem skipPadding_erase : cursor.erase.skipPadding = cursor.skipPadding.erase :=
  cursor.skipWhile_erase _

@[simp]
theorem step_erase : cursor.erase.step = cursor.step.erase := by
  obtain ⟨passed, rest⟩ := cursor
  cases rest <;> rfl

@[simp]
theorem advance_erase : cursor.erase.advance = cursor.advance.erase := by
  rw [advance, advance, step_erase, skipPadding_erase]

@[simp]
theorem accept_erase : cursor.erase.accept kind = (cursor.accept kind).erase := by
  rw [accept, accept, isAt_erase]
  split
  next => exact cursor.advance_erase
  next => rfl

end Cursor

namespace Read

variable {α β : Type}

/-- Two runs give the same value and stop at the same place, the second one among
erased tokens, or both fail. -/
inductive Erased : EStateM.Result Failure Cursor α → EStateM.Result Failure Cursor α → Prop
  | ok (value : α) (after : Cursor) : Erased (.ok value after) (.ok value after.erase)
  | error (failure failure' : Failure) (after after' : Cursor) : Erased (.error failure after) (.error failure' after')

/-- A reader runs in the same way among erased tokens. -/
def Erases (read : Read α) (cursor : Cursor) : Prop :=
  Erased (read cursor) (read cursor.erase)

variable {read : Read α} {next : α → Read β} {cursor : Cursor} {kind : Token.Kind}

theorem erases_pure (value : α) (cursor : Cursor) : Erases (pure value) cursor :=
  .ok value cursor

theorem erases_failExpecting (kind : Token.Kind) (cursor : Cursor) :
    Erases (failExpecting kind : Read α) cursor :=
  .error _ _ _ _

theorem erases_bind (front : Erases read cursor) (back : ∀ value after, Erases (next value) after) :
    Erases (read >>= next) cursor := by
  rw [Erases] at front ⊢
  generalize near : read cursor = first at front
  generalize far : read cursor.erase = second at front
  cases front with
  | ok value after =>
      rw [run_bind_of_ok near, run_bind_of_ok far]
      exact back value after
  | error =>
      rw [run_bind_of_error near, run_bind_of_error far]
      exact .error _ _ _ _

/-- What a reader does with its cursor must not depend on erased texts. -/
theorem erases_get_bind {next : Cursor → Read α} (same : next cursor.erase = next cursor)
    (back : Erases (next cursor) cursor) : Erases (get >>= next) cursor := by
  rw [Erases, run_get_bind, run_get_bind, same]
  exact back

theorem erases_move {f : Cursor → Cursor} (same : f cursor.erase = (f cursor).erase) :
    Erases (move f) cursor := by
  rw [Erases, run_move, run_move, same]
  exact .ok _ _

theorem erases_step (cursor : Cursor) : Erases step cursor :=
  erases_move cursor.step_erase

theorem erases_advance (cursor : Cursor) : Erases advance cursor :=
  erases_move cursor.advance_erase

theorem erases_accept (kind : Token.Kind) (cursor : Cursor) : Erases (accept kind) cursor := by
  rw [Erases, run_accept, run_accept, Cursor.isAt_erase, Cursor.accept_erase]
  exact .ok _ _

theorem erases_takeText (known : cursor.kind? ≠ some .other) : Erases takeText cursor := by
  refine @erases_get_bind _ cursor (fun here => do advance; return here.text) ?_ ?_
  · rw [cursor.text_erase known]
  · exact erases_bind (erases_advance cursor) fun _ after => erases_pure _ after

theorem erases_expect (known : kind ≠ .other) (cursor : Cursor) : Erases (expect kind) cursor := by
  obtain ⟨passed, rest⟩ := cursor
  cases rest with
  | nil => exact .error _ _ _ _
  | cons token rest =>
      by_cases same : token.kind = kind
      · have kept : token.erase = token := Token.erase_of_known (same ▸ known)
        have near : expect kind ⟨passed, token :: rest⟩ =
            .ok token (Cursor.advance ⟨passed, token :: rest⟩) :=
          run_expect rfl same
        have far : expect kind (Cursor.erase ⟨passed, token :: rest⟩) =
            .ok token (Cursor.erase ⟨passed, token :: rest⟩).advance :=
          run_expect (show _ = token :: _ by rw [Cursor.erase, List.map_cons, kept]) same
        rw [Erases, near, far, Cursor.advance_erase]
        exact .ok _ _
      · have other : token.erase.kind ≠ kind := by rwa [Token.kind_erase]
        have near : expect kind ⟨passed, token :: rest⟩ =
            failExpecting kind ⟨passed, token :: rest⟩ := by
          rw [expect, run_get_bind]
          exact congrFun (if_neg same) _
        have far : expect kind (Cursor.erase ⟨passed, token :: rest⟩) =
            failExpecting kind (Cursor.erase ⟨passed, token :: rest⟩) := by
          rw [expect, run_get_bind]
          exact congrFun (if_neg other) _
        rw [Erases, near, far]
        exact .error _ _ _ _

theorem erases_further {separator : Read Bool} {item : Read α}
    (separates : ∀ cursor, Erases separator cursor)
    (items : ∀ cursor, Erases item cursor) (bound : Nat) (cursor : Cursor) :
    Erases (further separator item bound) cursor := by
  induction bound generalizing cursor with
  | zero => exact erases_pure _ cursor
  | succ bound ih =>
      refine erases_bind (separates cursor) fun more middle => ?_
      cases more with
      | false => exact erases_pure _ middle
      | true =>
          exact erases_bind (items middle) fun value behind =>
            erases_bind (ih behind) fun others after => erases_pure _ after

theorem erases_allFurther {separator : Read Bool} {item : Read α}
    (separates : ∀ cursor, Erases separator cursor)
    (items : ∀ cursor, Erases item cursor) (cursor : Cursor) :
    Erases (allFurther separator item) cursor :=
  erases_get_bind (by rw [Cursor.length_rest_erase]) (erases_further separates items _ cursor)

end Read

namespace TypeExpr.Grammar

open Read Cursor Token

/-! ## Types -/

theorem isAtBrackets_erase (cursor : Cursor) : isAtBrackets cursor.erase = isAtBrackets cursor := by
  simp [isAtBrackets]

theorem isAtIntersection_erase (cursor : Cursor) :
    isAtIntersection cursor.erase = isAtIntersection cursor := by
  simp [isAtIntersection]

theorem isAtKey_erase (cursor : Cursor) : isAtKey cursor.erase = isAtKey cursor := by
  simp [isAtKey]

theorem erases_brackets (bound : Nat) (type : TypeExpr) (cursor : Cursor) :
    Erases (brackets bound type) cursor := by
  induction bound generalizing type cursor with
  | zero => exact erases_pure _ cursor
  | succ bound ih =>
      refine erases_get_bind (by rw [isAtBrackets_erase]) ?_
      split
      next =>
        exact erases_bind (erases_step cursor) fun _ middle =>
          erases_bind (erases_advance middle) fun _ after => ih _ after
      next => exact erases_pure _ cursor

section Parts

variable {atom type : Read TypeExpr} (atoms : ∀ cursor, Erases atom cursor)
  (types : ∀ cursor, Erases type cursor)

include atoms in
theorem erases_postfixType (cursor : Cursor) : Erases (postfixType atom) cursor :=
  erases_bind (atoms cursor) fun type middle =>
    erases_get_bind (by rw [length_rest_erase]) (erases_brackets _ type middle)

theorem erases_acceptIntersection (cursor : Cursor) : Erases acceptIntersection cursor := by
  refine erases_get_bind (by rw [isAtIntersection_erase]) ?_
  split
  next => exact erases_bind (erases_advance cursor) fun _ after => erases_pure _ after
  next => exact erases_pure _ cursor

include atoms in
theorem erases_typeWith (cursor : Cursor) : Erases (typeWith atom) cursor := by
  have members := erases_postfixType atoms
  refine erases_bind (members cursor) fun first middle => ?_
  refine erases_get_bind (by rw [isAt_erase]) ?_
  split
  next =>
    exact erases_bind (erases_allFurther (erases_accept .bar) members middle) fun _ after =>
      erases_pure _ after
  next =>
    refine erases_get_bind (by rw [isAtIntersection_erase]) ?_
    split
    next =>
      exact erases_bind (erases_allFurther erases_acceptIntersection members middle) fun _ after =>
        erases_pure _ after
    next => exact erases_pure _ middle

/-! ## Callables and shapes -/

theorem erases_acceptVariable (cursor : Cursor) : Erases acceptVariable cursor := by
  refine erases_get_bind (by rw [isAt_erase]) ?_
  split
  next stands =>
    refine erases_bind (erases_takeText ?_) fun _ after => erases_pure _ after
    rw [beq_iff_eq.mp stands]
    decide
  next => exact erases_pure _ cursor

include types

theorem erases_callableParam (cursor : Cursor) : Erases (callableParam type) cursor :=
  erases_bind (types cursor) fun _ typed => erases_bind (erases_accept .ampersand typed)
      fun _ marked =>
    erases_bind (erases_accept .ellipsis marked) fun _ spread =>
      erases_bind (erases_acceptVariable spread) fun _ after => erases_pure _ after

theorem erases_callableParams (cursor : Cursor) : Erases (callableParams type) cursor := by
  have params := erases_callableParam types
  refine erases_get_bind (by rw [isAt_erase]) ?_
  split
  next => exact erases_pure _ cursor
  next =>
    exact erases_bind (params cursor) fun _ middle =>
      erases_bind (erases_allFurther (erases_accept .comma) params middle) fun _ after =>
        erases_pure _ after

theorem erases_shapeItem (cursor : Cursor) : Erases (shapeItem type) cursor := by
  refine erases_get_bind (by rw [isAtKey_erase]) ?_
  split
  next stands =>
    refine erases_bind (erases_takeText fun unknown => ?_) fun _ keyed => ?_
    · rw [isAtKey, unknown] at stands
      cases stands
    · exact erases_bind (erases_accept .question keyed) fun _ marked =>
        erases_bind (erases_expect (by decide) marked) fun _ parted =>
          erases_bind (types parted) fun _ after => erases_pure _ after
  next => exact erases_bind (types cursor) fun _ after => erases_pure _ after

theorem erases_shapeItems (bound : Nat) (cursor : Cursor) :
    Erases (shapeItems type bound) cursor := by
  induction bound generalizing cursor with
  | zero => exact erases_pure _ cursor
  | succ bound ih =>
      refine erases_get_bind (by rw [isAt_erase, isAtEnd_erase]) ?_
      split
      next => exact erases_pure _ cursor
      next =>
        refine erases_bind (erases_shapeItem types cursor) fun item middle => ?_
        refine erases_bind (erases_accept .comma middle) fun more behind => ?_
        cases more with
        | false => exact erases_pure _ behind
        | true => exact erases_bind (ih behind) fun _ after => erases_pure _ after

end Parts

/-! ## Atoms -/

theorem erases_namedType {atom : Read TypeExpr} (atoms : ∀ cursor, Erases atom cursor)
    {cursor : Cursor} (known : cursor.kind? ≠ some .other) :
    Erases (namedType atom) cursor := by
  have types := erases_typeWith atoms
  refine erases_get_bind (by rw [cursor.text_erase known]) ?_
  refine erases_bind (erases_step cursor) fun _ named => ?_
  refine erases_get_bind (by rw [isAt_erase, isAt_erase, isAt_erase, length_rest_erase]) ?_
  split
  next =>
    exact erases_bind (erases_advance named) fun _ opened =>
        erases_bind (types opened) fun _ middle =>
      erases_bind (erases_allFurther (erases_accept .comma) types middle) fun _ behind =>
        erases_bind (erases_expect (by decide) behind) fun _ after => erases_pure _ after
  split
  next =>
    exact erases_bind (erases_advance named) fun _ opened =>
      erases_bind (erases_callableParams types opened) fun _ middle =>
        erases_bind (erases_expect (by decide) middle) fun _ closed =>
          erases_bind (erases_expect (by decide) closed) fun _ parted =>
            erases_bind (erases_postfixType atoms parted) fun _ after => erases_pure _ after
  split
  next =>
    exact erases_bind (erases_advance named) fun _ opened =>
      erases_bind (erases_shapeItems types _ opened) fun _ middle =>
        erases_bind (erases_expect (by decide) middle) fun _ after => erases_pure _ after
  next => exact erases_bind (erases_move named.skipPadding_erase) fun _ after => erases_pure _ after

theorem erases_atom (depth : Nat) (cursor : Cursor) : Erases (atom depth) cursor := by
  induction depth generalizing cursor with
  | zero => exact erases_failExpecting _ cursor
  | succ depth ih =>
      by_cases unknown : cursor.kind? = some .other
      · rw [Erases, Grammar.atom, run_get_bind, run_get_bind, kind?_erase, unknown]
        exact erases_failExpecting _ cursor
      refine erases_get_bind (by rw [kind?_erase, cursor.text_erase unknown]) ?_
      split
      next =>
        exact erases_bind (erases_advance cursor) fun _ middle =>
          erases_bind (ih middle) fun _ after =>
          erases_pure _ after
      next =>
        exact erases_bind (erases_advance cursor) fun _ opened =>
          erases_bind (erases_typeWith ih opened) fun _ middle =>
            erases_bind (erases_expect (by decide) middle) fun _ after => erases_pure _ after
      next => exact erases_bind (erases_takeText unknown) fun _ after => erases_pure _ after
      next => exact erases_bind (erases_takeText unknown) fun _ after => erases_pure _ after
      next =>
        split
        next => exact erases_bind (erases_takeText unknown) fun _ after => erases_pure _ after
        next => exact erases_failExpecting _ cursor
      next => exact erases_namedType ih unknown
      next => exact erases_failExpecting _ cursor

end TypeExpr.Grammar

theorem TypeExpr.erases_read (cursor : Cursor) : Read.Erases TypeExpr.read cursor :=
  Read.erases_get_bind (by rw [Cursor.length_rest_erase])
    (Grammar.erases_typeWith (Grammar.erases_atom _) cursor)

namespace Payload.Grammar

open Read Cursor TypeExpr.Grammar

/-! ## Subjects -/

theorem isAtParameter_erase (cursor : Cursor) :
    isAtParameter cursor.erase = isAtParameter cursor := by
  simp [isAtParameter]

theorem erases_typeUnless (absent : Bool) (cursor : Cursor) :
    Erases (typeUnless absent) cursor := by
  rw [typeUnless]
  split
  next => exact erases_pure _ cursor
  next => exact erases_bind (TypeExpr.erases_read cursor) fun _ after => erases_pure _ after

theorem erases_expectSeparated (cursor : Cursor) : Erases expectSeparated cursor := by
  refine erases_get_bind (by rw [isAtLineEnd_erase, isAfterPadding_erase]) ?_
  split
  next => exact erases_pure _ cursor
  next => exact erases_failExpecting _ cursor

/-- A subject is read without regard to unknown text. -/
theorem erases_subject (kind : Subject.Kind) (cursor : Cursor) : Erases (subject kind) cursor := by
  cases kind with
  | param =>
      refine erases_get_bind (by rw [isAtParameter_erase]) ?_
      exact erases_bind (erases_typeUnless _ cursor) fun _ typed =>
        erases_bind (erases_accept .ampersand typed) fun _ marked =>
          erases_bind (erases_accept .ellipsis marked) fun _ spread =>
            erases_bind (erases_expect (by decide) spread) fun _ named =>
              erases_bind (erases_expectSeparated named) fun _ after => erases_pure _ after
  | returned | thrown =>
      exact erases_bind (TypeExpr.erases_read cursor) fun _ typed =>
        erases_bind (erases_expectSeparated typed) fun _ after => erases_pure _ after
  | var =>
      refine erases_get_bind (by rw [isAt_erase]) ?_
      exact erases_bind (erases_typeUnless _ cursor) fun _ typed =>
        erases_bind (erases_acceptVariable typed) fun _ named =>
          erases_bind (erases_expectSeparated named) fun _ after => erases_pure _ after

end Payload.Grammar

end DocComment
