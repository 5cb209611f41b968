import DocComment.Proofs.TypeExpr.Prospect

/-!
# Runs of the grammar of types

The grammar of types once more, without the bounds that its reader counts down: its parts call each
other and themselves as often as they like (`Part.program`).  A run of a program is a finite tree of
calls (`Ends`), and at every cursor there is just one run of the whole grammar, with the result
that the reader gives (`ends_iff`).

A type takes a token at least, crosses no token that ends types, and leaves no padding in front
of what follows it (`Rests`).
-/

namespace DocComment

namespace TypeExpr

namespace Grammar

open Read Token

variable {α β : Type}

/-! ## Programs -/

/-- A part of the grammar, with the kind of thing that it gives. -/
inductive Part : Type → Type 1 where
  /-- A whole type. -/
  | type : Part TypeExpr
  /-- An atom with the bracket pairs behind it. -/
  | postfixType : Part TypeExpr
  /-- The bracket pairs behind a type. -/
  | brackets (inner : TypeExpr) : Part TypeExpr
  | atom : Part TypeExpr
  /-- A type that starts with a name. -/
  | namedType : Part TypeExpr
  /-- A parameter of a callable. -/
  | param : Part (CallableParam TypeExpr)
  | params : Part (List (CallableParam TypeExpr))
  /-- An item of a shape. -/
  | item : Part (ShapeItem TypeExpr)
  | items : Part (List (ShapeItem TypeExpr))
  /-- Further parts of one kind, each announced by a separator. -/
  | further {α : Type} (separator : Read Bool) (part : Part α) : Part (List α)

/-- A program that reads and calls parts of the grammar. -/
inductive Program : Type → Type 1 where
  | plain {α : Type} (read : Read α) : Program α
  | bind {α β : Type} (first : Program α) (next : α → Program β) : Program β
  | call {α : Type} (part : Part α) : Program α

instance : Monad Program where
  pure value := .plain (pure value)
  bind := .bind

instance : MonadLift Read Program :=
  ⟨.plain⟩

open Program in
/-- What a part of the grammar does; no call says how often it may call further parts. -/
def Part.program : Part α → Program α
  | .type => do
      let first ← call .postfixType
      if (← get).isAt .bar then
        return .union (first :: (← call (.further (Read.accept .bar) .postfixType)))
      else if isAtIntersection (← get) then
        return .intersection (first :: (← call (.further acceptIntersection .postfixType)))
      else return first
  | .postfixType => do
      let type ← call .atom
      call (.brackets type)
  | .brackets inner => do
      if isAtBrackets (← get) then
        Read.step
        Read.advance
        call (.brackets (.array inner))
      else return inner
  | .atom => do
      let cursor ← get
      match cursor.kind? with
      | some .question =>
          Read.advance
          return .nullable (← call .atom)
      | some .roundOpen =>
          Read.advance
          let inner ← call .type
          let _ ← Read.expect .roundClose
          return inner
      | some .quoted | some .number => return .constant (← Read.takeText)
      | some .varName =>
          if cursor.text = selfVariable then return .named (← Read.takeText)
          else Read.failExpecting .name
      | some .name => call .namedType
      | _ => Read.failExpecting .name
  | .namedType => do
      let name := (← get).text
      Read.step
      let cursor ← get
      if cursor.isAt .angleOpen then
        Read.advance
        let first ← call .type
        let others ← call (.further (Read.accept .comma) .type)
        let _ ← Read.expect .angleClose
        return .generic name (first :: others)
      else if cursor.isAt .roundOpen && isCallableName name then
        Read.advance
        let params ← call .params
        let _ ← Read.expect .roundClose
        let _ ← Read.expect .colon
        let result ← call .postfixType
        return .callable name params result
      else if cursor.isAt .curlyOpen && isShapeName name then
        Read.advance
        let items ← call .items
        let _ ← Read.expect .curlyClose
        return .shape name items
      else
        Read.move Cursor.skipPadding
        return .named name
  | .param => do
      let type ← call .type
      let byReference ← Read.accept .ampersand
      let variadic ← Read.accept .ellipsis
      let name ← acceptVariable
      return ⟨type, byReference, variadic, name⟩
  | .params => do
      if (← get).isAt .roundClose then
        return []
      else
        let first ← call .param
        return first :: (← call (.further (Read.accept .comma) .param))
  | .item => do
      if isAtKey (← get) then
        let key ← Read.takeText
        let optional ← Read.accept .question
        let _ ← Read.expect .colon
        let value ← call .type
        return ⟨some key, optional, value⟩
      else
        let value ← call .type
        return ⟨none, false, value⟩
  | .items => do
      let cursor ← get
      if cursor.isAt .curlyClose || cursor.isAtEnd then
        return []
      else
        let item ← call .item
        if ← Read.accept .comma then
          return item :: (← call .items)
        else return [item]
  | .further separator part => do
      if ← separator then
        let first ← call part
        let others ← call (.further separator part)
        return first :: others
      else return []

/-! ## Runs -/

/-- A program comes to an end, with a result. -/
inductive Ends : {α : Type} → Program α → Cursor → EStateM.Result Failure Cursor α → Prop
  | plain {α : Type} (read : Read α) (cursor : Cursor) : Ends (.plain read) cursor (read cursor)
  | fails {α β : Type} {first : Program α} {next : α → Program β} {cursor after : Cursor} {failure : Failure}
      (failed : Ends first cursor (.error failure after)) : Ends (.bind first next) cursor (.error failure after)
  | goesOn {α β : Type} {first : Program α} {next : α → Program β} {cursor middle : Cursor} {value : α}
      {result : EStateM.Result Failure Cursor β} (done : Ends first cursor (.ok value middle))
      (ended : Ends (next value) middle result) : Ends (.bind first next) cursor result
  | call {α : Type} {part : Part α} {cursor : Cursor} {result : EStateM.Result Failure Cursor α}
      (ended : Ends part.program cursor result) : Ends (.call part) cursor result

/-- A program has no more than one result. -/
theorem Ends.unique {program : Program α} {cursor : Cursor}
    {result other : EStateM.Result Failure Cursor α}
    (ended : Ends program cursor result) (again : Ends program cursor other) : result = other := by
  induction ended with
  | plain read cursor =>
      cases again
      rfl
  | fails failed ih =>
      cases again with
      | fails failed' =>
        cases ih failed'
        rfl
      | goesOn done => cases ih done
  | goesOn done ended first second =>
      cases again with
      | fails failed => cases first failed
      | goesOn done' ended' =>
          cases first done'
          exact second ended'
  | call ended ih =>
      cases again with
      | call again => exact ih again

/-! ## What the reader does, the programs do -/

section Carries

variable {program : Program α} {read : Read α} {next : α → Program β} {next' : α → Read β}
  {cursor : Cursor}
  {count : Nat}

theorem ends_plain {result : EStateM.Result Failure Cursor α} (run : read cursor = result) :
    Ends (.plain read) cursor result :=
  run ▸ .plain read cursor

theorem ends_bind (front : Ends program cursor (read cursor))
    (back : ∀ value after, read cursor = .ok value after →
      Ends (next value) after (next' value after)) :
    Ends (program >>= next) cursor ((read >>= next') cursor) := by
  cases run : read cursor with
  | ok value after =>
      rw [run_bind_of_ok run]
      exact .goesOn (run ▸ front) (back value after run)
  | error failure after =>
      rw [run_bind_of_error run]
      exact .fails (run ▸ front)

/-- With fewer than some count of tokens in front of it a program does what a reader does. -/
structure Carries (count : Nat) (program : Program α) (read : Read α) : Prop where
  ends : ∀ cursor, remaining cursor < count → Ends program cursor (read cursor)
  forward : GoesForward read

theorem carries_plain (forward : GoesForward read) : Carries count (.plain read) read :=
  ⟨fun cursor _ => .plain read cursor, forward⟩

theorem carries_pure (value : α) : Carries count (pure value) (pure value) :=
  carries_plain (goesForward_pure value)

theorem carries_bind (front : Carries count program read)
    (back : ∀ value, Carries count (next value) (next' value)) :
    Carries count (program >>= next) (read >>= next') where
  ends cursor near := ends_bind (front.ends cursor near) fun value after run =>
    (back value).ends after (Nat.lt_of_le_of_lt (front.forward.length_le run) near)
  forward := goesForward_bind front.forward fun value => (back value).forward

theorem carries_get_bind {next : Cursor → Program α} {next' : Cursor → Read α}
    (back : ∀ cursor, Carries count (next cursor) (next' cursor)) :
    Carries count (get >>= next) (get >>= next') where
  ends cursor near := .goesOn (.plain get cursor) ((back cursor).ends cursor near)
  forward := goesForward_get_bind fun cursor => (back cursor).forward

theorem carries_ite {test : Prop} [Decidable test] {program' : Program α} {read' : Read α}
    (yes : Carries count program read) (no : Carries count program' read') :
    Carries count (if test then program else program') (if test then read else read') := by
  split
  · exact yes
  · exact no

theorem carries_call {part : Part α} (body : Carries count part.program read) :
    Carries count (.call part) read :=
  ⟨fun cursor near => .call (body.ends cursor near), body.forward⟩

end Carries

/-! ## Lists and brackets -/

/-- Every separator takes a token, so a list ends with the tokens at the latest. -/
theorem carries_further {count : Nat} {separator : Read Bool} {part : Part α} {item : Read α}
    (separates : IsSeparator separator) (items : Carries count (.call part) item) :
    Carries count (.call (.further separator part)) (allFurther separator item) := by
  have all (bound : Nat) (cursor : Cursor) (enough : remaining cursor ≤ bound)
      (near : remaining cursor < count) :
      Ends (.call (.further separator part)) cursor (further separator item bound cursor) := by
    induction bound generalizing cursor with
    | zero =>
        rcases separates cursor with stays | ⟨after, -, -, shorter⟩
        · exact .call (.goesOn (ends_plain stays) (.plain (pure []) cursor))
        · omega
    | succ bound ih =>
        rcases separates cursor with stays | ⟨after, run, -, shorter⟩
        · rw [run_further_of_false stays]
          exact .call (.goesOn (ends_plain stays) (.plain (pure []) cursor))
        · rw [further, run_bind_of_ok run, if_pos rfl]
          refine .call
            (.goesOn (ends_plain run)
              (ends_bind (items.ends after (by omega)) fun value middle taken => ?_))
          have nearer : remaining middle ≤ remaining after := items.forward.length_le taken
          exact ends_bind (ih middle (by omega) (by omega)) fun _ _ _ => .plain _ _
  exact ⟨fun cursor near => all _ cursor (Nat.le_refl _) near,
    (coincide_allFurther separates.goesForward (@coincide_refl _ 0 _ items.forward)).forward⟩

theorem ends_brackets (bound : Nat) (inner : TypeExpr) (cursor : Cursor)
    (enough : remaining cursor ≤ bound) :
    Ends (.call (.brackets inner)) cursor (brackets bound inner cursor) := by
  induction bound generalizing inner cursor with
  | zero =>
      have stands : isAtBrackets cursor = false := by
        rw [isAtBrackets, Cursor.isAt, kind?_of_remaining enough]
        rfl
      refine .call (.goesOn (.plain get cursor) ?_)
      rw [stands]
      exact .plain (pure inner) cursor
  | succ bound ih =>
      refine .call (.goesOn (.plain get cursor) ?_)
      unfold brackets
      rw [run_get_bind]
      split
      next stands =>
        have first : cursor.isAt .squareOpen = true := by
          rw [isAtBrackets, Bool.and_eq_true, Bool.and_eq_true] at stands
          exact stands.1.1
        have shorter := remaining_step_lt (beq_iff_eq.mp first)
        refine ends_bind (.plain step cursor) fun _ middle moved => ?_
        refine ends_bind (.plain advance middle) fun _ after advanced => ?_
        cases moved
        have nearer : remaining after ≤ remaining cursor.step :=
          goesForward_advance.length_le advanced
        exact ih _ after (by omega)
      next => exact .plain (pure inner) cursor

section Parts

variable {count : Nat} {atom : Read TypeExpr} (atoms : Carries count (.call .atom) atom)
include atoms

theorem carries_postfixType : Carries count (.call .postfixType) (postfixType atom) :=
  carries_call (carries_bind atoms fun type =>
    ⟨fun cursor _ => ends_brackets _ type cursor (Nat.le_refl _),
      goesForward_get_bind fun _ => (staysWithin_brackets _ type).goesForward⟩)

theorem carries_typeWith : Carries count (.call .type) (typeWith atom) := by
  have members := carries_postfixType atoms
  refine carries_call
    (carries_bind members fun first => carries_get_bind fun cursor => carries_ite ?_ ?_)
  · exact carries_bind (carries_further (isSeparator_accept _) members) fun _ => carries_pure _
  · refine carries_get_bind fun cursor => carries_ite ?_ (carries_pure _)
    exact carries_bind (carries_further isSeparator_acceptIntersection members) fun _ =>
      carries_pure _

theorem carries_callableParam : Carries count (.call .param) (callableParam (typeWith atom)) := by
  refine carries_call (carries_bind (carries_typeWith atoms) fun _ => ?_)
  refine carries_bind (carries_plain (goesForward_accept _)) fun _ => ?_
  refine carries_bind (carries_plain (goesForward_accept _)) fun _ => ?_
  exact carries_bind (carries_plain staysWithin_acceptVariable.goesForward) fun _ => carries_pure _

theorem carries_callableParams :
    Carries count (.call .params) (callableParams (typeWith atom)) := by
  have params := carries_callableParam atoms
  refine carries_call (carries_get_bind fun cursor => carries_ite (carries_pure _) ?_)
  refine carries_bind params fun _ => ?_
  exact carries_bind (carries_further (isSeparator_accept _) params) fun _ => carries_pure _

theorem carries_shapeItem : Carries count (.call .item) (shapeItem (typeWith atom)) := by
  have types := carries_typeWith atoms
  refine carries_call
    (carries_get_bind fun cursor => carries_ite ?_ (carries_bind types fun _ => carries_pure _))
  refine carries_bind (carries_plain goesForward_takeText) fun _ => ?_
  refine carries_bind (carries_plain (goesForward_accept _)) fun _ => ?_
  refine carries_bind (carries_plain (goesForward_expect _)) fun _ => ?_
  exact carries_bind types fun _ => carries_pure _

/-- Every item of a shape but the last one takes a comma. -/
theorem ends_shapeItems {bound : Nat} {cursor : Cursor} (enough : remaining cursor < bound)
    (near : remaining cursor < count) :
    Ends (.call .items) cursor (shapeItems (typeWith atom) bound cursor) := by
  have items := carries_shapeItem atoms
  induction bound generalizing cursor with
  | zero => omega
  | succ bound ih =>
      rw [shapeItems, run_get_bind]
      refine .call (.goesOn (.plain get cursor) ?_)
      split
      next => exact .plain (pure []) cursor
      next =>
        refine ends_bind (items.ends cursor near) fun item middle taken => ?_
        refine ends_bind (.plain (accept .comma) middle) fun separated after accepted => ?_
        have nearer : remaining middle ≤ remaining cursor := items.forward.length_le taken
        rcases isSeparator_accept .comma middle with stays | ⟨behind, run, -, shorter⟩
        · cases stays.symm.trans accepted
          exact .plain (pure [item]) middle
        · cases run.symm.trans accepted
          exact ends_bind (ih (by omega) (by omega)) fun _ _ _ => .plain _ _

/-- Behind the name of a type fewer tokens remain for its parts. -/
theorem ends_namedType {cursor : Cursor} (here : cursor.kind? = some .name)
    (near : remaining cursor < count + 1) :
    Ends (.call .namedType) cursor (namedType atom cursor) := by
  have types := carries_typeWith atoms
  have shorter := remaining_step_lt here
  rw [namedType, run_get_bind, run_bind_of_ok (run_step _), run_get_bind]
  refine .call
    (.goesOn (.plain get cursor)
      (.goesOn (.plain step cursor) (.goesOn (.plain get cursor.step) ?_)))
  split
  next =>
    refine (?_ : Carries count _ _).ends cursor.step (by omega)
    refine carries_bind (carries_plain goesForward_advance) fun _ => carries_bind types fun _ => ?_
    refine carries_bind (carries_further (isSeparator_accept _) types) fun _ => ?_
    exact carries_bind (carries_plain (goesForward_expect _)) fun _ => carries_pure _
  split
  next =>
    refine (?_ : Carries count _ _).ends cursor.step (by omega)
    refine carries_bind (carries_plain goesForward_advance) fun _ => ?_
    refine carries_bind (carries_callableParams atoms) fun _ => ?_
    refine carries_bind (carries_plain (goesForward_expect _)) fun _ => ?_
    refine carries_bind (carries_plain (goesForward_expect _)) fun _ => ?_
    exact carries_bind (carries_postfixType atoms) fun _ => carries_pure _
  split
  next opens =>
    rw [Bool.and_eq_true] at opens
    have behind := remaining_advance_lt (beq_iff_eq.mp opens.1)
    refine .goesOn (.plain advance cursor.step)
      (ends_bind (ends_shapeItems atoms ?_ ?_) fun _ _ _ => ?_)
    · exact Nat.lt_succ_of_lt behind
    · exact Nat.lt_trans behind (by omega)
    · exact ends_bind (.plain _ _) fun _ _ _ => .plain _ _
  next => exact ends_bind (.plain _ _) fun _ _ _ => .plain _ _

end Parts

/-- Every level of a nested type takes a token. -/
theorem carries_atom (depth : Nat) : Carries depth (.call .atom) (atom depth) := by
  refine ⟨?_, (staysWithin_atom depth).goesForward⟩
  induction depth with
  | zero => exact fun cursor near => absurd near (Nat.not_lt_zero _)
  | succ depth ih =>
      intro cursor near
      have inner : Carries depth (.call .atom) (atom depth) :=
        ⟨ih, (staysWithin_atom depth).goesForward⟩
      -- Behind a token fewer remain than the level below can take.
      have behind {kind : Kind} (here : cursor.kind? = some kind) :
          remaining cursor.advance < depth := by
        have shorter := remaining_advance_lt here
        omega
      rw [atom, run_get_bind]
      refine .call (.goesOn (.plain get cursor) ?_)
      cases here : cursor.kind? with
      | none => exact .plain _ _
      | some kind =>
          cases kind with
          | question =>
              refine .goesOn (.plain advance cursor) ?_
              exact (carries_bind inner fun _ => carries_pure _).ends cursor.advance (behind here)
          | roundOpen =>
              refine .goesOn (.plain advance cursor) ?_
              refine (carries_bind (carries_typeWith inner) fun _ => ?_).ends cursor.advance
                (behind here)
              exact carries_bind (carries_plain (goesForward_expect _)) fun _ => carries_pure _
          | quoted | number => exact ends_bind (.plain _ _) fun _ _ _ => .plain _ _
          | varName =>
              dsimp only
              split
              · exact ends_bind (.plain _ _) fun _ _ _ => .plain _ _
              · exact .plain _ _
          | name => exact ends_namedType inner here near
          | _ => exact .plain _ _

/-! ## Where a type ends -/

/-- Wherever the reader starts, it leaves no padding in front of what follows. -/
def Rests (read : Read α) : Prop :=
  ∀ cursor value after, read cursor = .ok value after → after.kind? ≠ some .padding

/-- The reader leaves no padding in front of what follows, unless it starts there. -/
def KeepsRest (read : Read α) : Prop :=
  ∀ cursor value after, cursor.kind? ≠ some .padding → read cursor = .ok value after → after.kind? ≠ some .padding

section Resting

variable {read : Read α} {next : α → Read β}

theorem Rests.keepsRest (rests : Rests read) : KeepsRest read :=
  fun cursor value after _ run => rests cursor value after run

theorem rests_bind (back : ∀ value, Rests (next value)) : Rests (read >>= next) := by
  intro cursor result after run
  obtain ⟨value, middle, -, ran⟩ := bind_eq_ok.mp run
  exact back value middle result after ran

theorem rests_bind_of_keepsRest (front : Rests read) (back : ∀ value, KeepsRest (next value)) :
    Rests (read >>= next) := by
  intro cursor result after run
  obtain ⟨value, middle, ran, ran'⟩ := bind_eq_ok.mp run
  exact back value middle result after (front cursor value middle ran) ran'

theorem rests_advance : Rests advance := by
  rintro cursor _ _ ⟨⟩
  exact Cursor.kind?_skipPadding_ne _

theorem rests_skipPadding : Rests (move Cursor.skipPadding) := by
  rintro cursor _ _ ⟨⟩
  exact Cursor.kind?_skipPadding_ne _

theorem rests_takeText : Rests takeText := by
  rintro cursor _ _ ⟨⟩
  exact Cursor.kind?_skipPadding_ne _

theorem rests_expect (kind : Kind) : Rests (expect kind) := by
  intro cursor token after run
  obtain ⟨-, -, rfl⟩ := expect_eq_ok run
  exact Cursor.kind?_skipPadding_ne _

theorem rests_failExpecting (kind : Kind) : Rests (failExpecting kind : Read α) := by
  rintro cursor _ _ ⟨⟩

theorem keepsRest_pure (value : α) : KeepsRest (pure value) := by
  rintro cursor _ _ firm ⟨⟩
  exact firm

theorem keepsRest_bind (front : KeepsRest read) (back : ∀ value, KeepsRest (next value)) :
    KeepsRest (read >>= next) := by
  intro cursor result after firm run
  obtain ⟨value, middle, ran, ran'⟩ := bind_eq_ok.mp run
  exact back value middle result after (front cursor value middle firm ran) ran'

theorem keepsRest_get_bind {next : Cursor → Read α} (back : ∀ cursor, KeepsRest (next cursor)) :
    KeepsRest (get >>= next) :=
  fun cursor => back cursor cursor

theorem keepsRest_accept (kind : Kind) : KeepsRest (accept kind) := by
  refine keepsRest_get_bind fun cursor => ?_
  split
  · exact (rests_bind_of_keepsRest rests_advance fun _ => keepsRest_pure _).keepsRest
  · exact keepsRest_pure _

theorem keepsRest_further {separator : Read Bool} {item : Read α} (separates : KeepsRest separator)
    (items : Rests item) (bound : Nat) : KeepsRest (further separator item bound) := by
  induction bound with
  | zero => exact keepsRest_pure _
  | succ bound ih =>
      refine keepsRest_bind separates fun found => ?_
      split
      · exact keepsRest_bind items.keepsRest fun _ => keepsRest_bind ih fun _ => keepsRest_pure _
      · exact keepsRest_pure _

theorem keepsRest_allFurther {separator : Read Bool} {item : Read α}
    (separates : KeepsRest separator)
    (items : Rests item) : KeepsRest (allFurther separator item) :=
  keepsRest_get_bind fun _ => keepsRest_further separates items _

end Resting

theorem keepsRest_brackets (bound : Nat) (inner : TypeExpr) : KeepsRest (brackets bound inner) := by
  induction bound generalizing inner with
  | zero => exact keepsRest_pure _
  | succ bound ih =>
      refine keepsRest_get_bind fun cursor => ?_
      split
      · exact (rests_bind fun _ => rests_bind_of_keepsRest rests_advance fun _ => ih _).keepsRest
      · exact keepsRest_pure _

theorem keepsRest_acceptIntersection : KeepsRest acceptIntersection := by
  refine keepsRest_get_bind fun cursor => ?_
  split
  · exact (rests_bind_of_keepsRest rests_advance fun _ => keepsRest_pure _).keepsRest
  · exact keepsRest_pure _

section Resting

variable {atom : Read TypeExpr} (atoms : Rests atom)
include atoms

theorem rests_postfixType : Rests (postfixType atom) :=
  rests_bind_of_keepsRest atoms fun _ => keepsRest_get_bind fun _ => keepsRest_brackets _ _

theorem rests_typeWith : Rests (typeWith atom) := by
  have members := rests_postfixType atoms
  refine rests_bind_of_keepsRest members fun _ => keepsRest_get_bind fun _ => ?_
  split
  · exact keepsRest_bind (keepsRest_allFurther (keepsRest_accept _) members) fun _ =>
      keepsRest_pure _
  · refine keepsRest_get_bind fun _ => ?_
    split
    · exact keepsRest_bind (keepsRest_allFurther keepsRest_acceptIntersection members) fun _ =>
        keepsRest_pure _
    · exact keepsRest_pure _

/-- A type that starts with a name ends with a bracket, a result, or the padding behind the name. -/
theorem rests_namedType : Rests (namedType atom) := by
  refine rests_bind fun _ => rests_bind fun _ => rests_bind fun cursor => ?_
  split
  · refine rests_bind fun _ => rests_bind fun _ => rests_bind fun _ => ?_
    exact rests_bind_of_keepsRest (rests_expect _) fun _ => keepsRest_pure _
  split
  · refine rests_bind fun _ => rests_bind fun _ => rests_bind fun _ => rests_bind fun _ => ?_
    exact rests_bind_of_keepsRest (rests_postfixType atoms) fun _ => keepsRest_pure _
  split
  · refine rests_bind fun _ => rests_bind fun _ => ?_
    exact rests_bind_of_keepsRest (rests_expect _) fun _ => keepsRest_pure _
  · exact rests_bind_of_keepsRest rests_skipPadding fun _ => keepsRest_pure _

end Resting

theorem rests_atom (depth : Nat) : Rests (atom depth) := by
  induction depth with
  | zero => exact rests_failExpecting _
  | succ depth ih =>
      refine rests_bind fun cursor => ?_
      split
      · exact rests_bind fun _ => rests_bind_of_keepsRest ih fun _ => keepsRest_pure _
      · refine rests_bind fun _ => rests_bind fun _ => ?_
        exact rests_bind_of_keepsRest (rests_expect _) fun _ => keepsRest_pure _
      · exact rests_bind_of_keepsRest rests_takeText fun _ => keepsRest_pure _
      · exact rests_bind_of_keepsRest rests_takeText fun _ => keepsRest_pure _
      · split
        · exact rests_bind_of_keepsRest rests_takeText fun _ => keepsRest_pure _
        · exact rests_failExpecting _
      · exact rests_namedType ih
      · exact rests_failExpecting _

end Grammar

open Grammar Read

/-- At every cursor the whole grammar has one run, and it ends as the reader does. -/
theorem ends_iff {cursor : Cursor} {result : EStateM.Result Failure Cursor TypeExpr} :
    Ends (.call .type) cursor result ↔ result = read cursor := by
  have ends : Ends (.call .type) cursor (read cursor) :=
    (carries_typeWith (carries_atom _)).ends cursor (Nat.lt_succ_self _)
  exact ⟨fun ended => ended.unique ends, fun same => same ▸ ends⟩

theorem index_lt_of_read {cursor after : Cursor} {type : TypeExpr}
    (run : read cursor = .ok type after) :
    cursor.index < after.index := by
  have atoms := (staysWithin_atom (cursor.rest.length + 1)).goesForward
  have shorter := consumes_typeWith atoms (consumes_atom _) cursor type after run
  have same := ((staysWithin_read cursor).of_ok run).tokens
  rw [Cursor.length_rest, Cursor.length_rest, same] at shorter
  omega

theorem rests_read : Rests read :=
  fun cursor => rests_typeWith (rests_atom _) cursor

/--
At every cursor, whatever the tokens are, reading a type comes to an end: the grammar has just one
run there, and a run is finite.  However it ends, it goes forward only, and not over a line break, a
marker, a tag, an equals sign or unknown text.  A type that was read has taken a token at least, and
no padding stands behind it.
-/
theorem read_staysOnLine (cursor : Cursor) :
    (∀ result, Ends (.call .type) cursor result ↔ result = read cursor) ∧
      Read.Crosses (fun kind => kind ∉ [.lineBreak, .closing, .opening, .tag, .equals, .other]) read cursor ∧
        ∀ type after, read cursor = .ok type after → cursor.index < after.index ∧ after.kind? ≠ some .padding := by
  refine ⟨fun result => ends_iff, (staysWithin_read cursor).mono fun kind inside => ?_, fun type after run => ?_⟩
  · cases kind <;> first | decide | cases inside
  · exact ⟨index_lt_of_read run, rests_read cursor type after run⟩

end TypeExpr

end DocComment
