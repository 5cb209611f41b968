import DocComment.Proofs.Reading.Annotation
import DocComment.Proofs.Reading.Taking

/-!
# Rules of annotations

What each rule of the grammar of calls does with the tokens in front of it: how far a literal goes,
what its first token makes of a value or an argument, and where arguments, calls and
payloads end.  Every rule that loops or recurses has its single turn stated by itself.
-/

namespace DocComment

open Token

namespace Annotation

namespace Grammar

open Read

variable {depth : Nat} {tokens front back : List Token} {token : Token}

/-! ## Literals -/

/-- How deep brackets are open behind a token of a literal; `none` if the token ends the literal. -/
def depthBehind? (depth : Nat) : Kind → Option Nat
  | .comma => if depth = 0 then none else some depth
  | .roundClose => if depth = 0 then none else some (depth - 1)
  | .roundOpen | .curlyOpen | .squareOpen => some (depth + 1)
  | .curlyClose | .squareClose => some (depth - 1)
  | _ => some depth

/-- How deep brackets are open behind tokens, if a literal goes on over all of them. -/
def depthBehindAll? (depth : Nat) (tokens : List Token) : Option Nat :=
  tokens.foldlM (fun depth token => depthBehind? depth token.kind) depth

/-- Whether a token ends an argument that has no open bracket. -/
def endsArgument (token : Token) : Bool :=
  token.kind == .comma || token.kind == .roundClose

theorem isMark_of_endsArgument (ends : endsArgument token = true) : token.kind.isMark = true := by
  rw [endsArgument, Bool.or_eq_true, beq_iff_eq, beq_iff_eq] at ends
  rcases ends with comma | close
  · rw [comma]
    rfl
  · rw [close]
    rfl

theorem depthBehind?_eq_none :
    depthBehind? depth token.kind = none ↔ depth = 0 ∧ endsArgument token = true := by
  unfold depthBehind? endsArgument
  split <;> simp_all

theorem literalLength_cons (depth : Nat) (token : Token) (rest : List Token) :
    literalLength depth (token :: rest) =
      match depthBehind? depth token.kind with
      | none => 0
      | some depth => literalLength depth rest + 1 := by
  cases token with
  | mk kind text =>
    rw [literalLength]
    cases kind with
    | comma | roundClose =>
        simp only [depthBehind?]
        split <;> rfl
    | _ => rfl

/-- A literal with closed brackets goes on up to the mark that ends its argument. -/
theorem literalLength_append (goesOn : depthBehindAll? depth front = some 0)
    (ends : endsArgument token = true) :
    literalLength depth (front ++ token :: back) = front.length := by
  induction front generalizing depth with
  | nil =>
      cases goesOn
      rw [List.nil_append, literalLength_cons, depthBehind?_eq_none.mpr ⟨rfl, ends⟩]
      rfl
  | cons first front ih =>
      rw [depthBehindAll?, List.foldlM_cons] at goesOn
      obtain ⟨deeper, step, later⟩ := Option.bind_eq_some_iff.mp goesOn
      rw [List.cons_append, literalLength_cons, step]
      exact congrArg Nat.succ (ih later)

/-- A literal that something stands behind has closed its brackets there and ends
with its argument. -/
theorem ends_of_literalLength (behind : tokens.drop (literalLength depth tokens) = token :: back) :
    depthBehindAll? depth (tokens.take (literalLength depth tokens)) = some 0 ∧
    endsArgument token = true := by
  induction tokens generalizing depth with
  | nil => cases behind
  | cons first tokens ih =>
      rw [literalLength_cons] at behind ⊢
      cases step : depthBehind? depth first.kind with
      | none =>
          rw [step] at behind
          cases behind
          obtain ⟨rfl, ends⟩ := depthBehind?_eq_none.mp step
          exact ⟨rfl, ends⟩
      | some deeper =>
          rw [step] at behind
          obtain ⟨closed, ends⟩ := ih behind
          refine ⟨?_, ends⟩
          rw [List.take_succ_cons, depthBehindAll?, List.foldlM_cons, step]
          exact closed

/-- Where no line ends, a literal is its tokens without the blanks around them. -/
theorem literalText_of_unbroken (unbroken : ∀ token ∈ tokens, token.kind ≠ .lineBreak) :
    literalText tokens = Text.trim (textOf tokens) := by
  refine congrArg Text.trim (List.flatMap_congr fun token mem => ?_)
  exact if_neg (unbroken token mem)

theorem run_literal (cursor : Cursor) :
    literal cursor = .ok (literalText (cursor.rest.take (literalLength 0 cursor.rest)))
      (cursor.forward (literalLength 0 cursor.rest)) :=
  rfl

/-- Padding opens and closes nothing. -/
theorem depthBehindAll?_padding (pads : ∀ token ∈ back, token.kind = .padding) :
    depthBehindAll? depth (front ++ back) = depthBehindAll? depth front := by
  have nothing (depth : Nat) : depthBehindAll? depth back = some depth := by
    induction back with
    | nil => rfl
    | cons token back ih =>
        obtain ⟨here, later⟩ := List.forall_mem_cons.mp pads
        rw [depthBehindAll?, List.foldlM_cons, here]
        exact ih later
  rw [depthBehindAll?, List.foldlM_append]
  exact (bind_congr nothing).trans (bind_pure _)

/-! ## Calls and keys -/

/-- Whether tokens begin with a call: with a tag, or with a name and a parenthesis behind it. -/
def opensCall : List Token → Bool
  | [] => false
  | token :: rest => token.kind == .tag || token.kind == .name && rest.head?.any fun next => next.kind == .roundOpen

/-- Whether tokens begin with the key of an argument. -/
def opensKey : List Token → Bool
  | [] => false
  | token :: rest =>
      token.kind == .name && (rest.dropWhile fun next => next.kind == .padding).head?.any fun next => next.kind == .equals

/-- What stands behind tokens takes no call away. -/
theorem opensCall_append (opens : opensCall front = true) (back : List Token) :
    opensCall (front ++ back) = true := by
  cases front with
  | nil => cases opens
  | cons first front =>
      cases front with
      | nil =>
          simp only [opensCall, List.head?_nil, Option.any_none, Bool.and_false,
            Bool.or_false] at opens
          simp [opensCall, opens]
      | cons second front => exact opens

theorem opensKey_append (opens : opensKey front = true) (back : List Token) :
    opensKey (front ++ back) = true := by
  cases front with
  | nil => cases opens
  | cons first front =>
      simp only [opensKey, Bool.and_eq_true] at opens
      simp only [List.cons_append, opensKey, Bool.and_eq_true]
      refine ⟨opens.1, ?_⟩
      rw [List.dropWhile_append]
      split
      next empty =>
        rw [List.isEmpty_iff.mp empty] at opens
        cases opens.2
      next proper =>
        rw [List.head?_append_of_ne_nil _ (by simpa using proper)]
        exact opens.2

/-- Nor does the mark behind an argument make a call or a key of it. -/
theorem opensCall_append_ends (ends : endsArgument token = true) (back : List Token) :
    opensCall (front ++ token :: back) = opensCall front := by
  simp only [endsArgument, Bool.or_eq_true, beq_iff_eq] at ends
  cases front with
  | nil => rcases ends with comma | close <;> simp [opensCall, *]
  | cons first front =>
      cases front with
      | nil => rcases ends with comma | close <;> simp [opensCall, *]
      | cons second front => rfl

theorem opensKey_append_ends (ends : endsArgument token = true) (back : List Token) :
    opensKey (front ++ token :: back) = opensKey front := by
  simp only [endsArgument, Bool.or_eq_true, beq_iff_eq] at ends
  cases front with
  | nil => rcases ends with comma | close <;> simp [opensKey, *]
  | cons first front =>
      simp only [List.cons_append, opensKey, List.dropWhile_append]
      split
      next empty =>
        rw [List.isEmpty_iff.mp empty]
        rcases ends with comma | close <;> simp [*]
      next proper => rw [List.head?_append_of_ne_nil _ (by simpa using proper)]

/-! ## What the first tokens announce -/

section Readers

variable {naming : Naming} {call : Text → Read Annotation} {cursor : Cursor}

theorem isAt_and_isAt_eq (cursor : Cursor) :
    (cursor.isAt .name && cursor.advance.isAt .equals) = opensKey cursor.rest := by
  cases stands : cursor.rest with
  | nil =>
      rw [Cursor.isAt, Cursor.kind?, stands]
      rfl
  | cons token rest =>
      rw [Cursor.isAt_of_rest stands, opensKey, Cursor.advance, Cursor.skipPadding,
        Cursor.skipWhile, Cursor.rest_step stands, Cursor.isAt, Cursor.kind?]
      cases rest.dropWhile fun next => next.kind == .padding with
      | nil => rfl
      | cons next rest => rfl

/-- The first token decides what kind of value is read. -/
theorem value_eq (cursor : Cursor) :
    value naming call cursor =
      if cursor.kind? = some .quoted then
        (do
          let written ← Read.takeText
          return .quoted (Text.Quoted.decode written) (written.headD '"') :
          Read ArgumentValue) cursor
      else if opensCall cursor.rest then
        (do return .nested (← nestedCall naming call) : Read ArgumentValue) cursor
      else (do return .literal (← literal) : Read ArgumentValue) cursor := by
  obtain ⟨passed, rest⟩ := cursor
  cases rest with
  | nil => rfl
  | cons token rest =>
      obtain ⟨kind, text⟩ := token
      cases kind with
      | name =>
          cases rest with
          | nil => rfl
          | cons next rest =>
              by_cases opens : next.kind = .roundOpen
              · simp [value, run_get_bind, Cursor.kind?, Cursor.nextKind?, opensCall, opens]
              · simp [value, run_get_bind, Cursor.kind?, Cursor.nextKind?, opensCall, opens]
      | _ => rfl

end Readers

/-! ## Nested calls and lists of arguments -/

/-- The full name of a nested call. -/
def fullName (naming : Naming) (written : Text) : Text :=
  (naming.resolve written).getD (written.dropWhile (· == '@'))

section Turns

variable {naming : Naming} {call : Text → Read Annotation} {cursor : Cursor}

theorem run_nestedCall {written : Text} {found : Annotation} {middle after : Cursor}
    (named : writtenName cursor = .ok written middle)
    (called : call (fullName naming written) middle = .ok found after) :
    nestedCall naming call cursor =
      .ok
        { found with writtenName := some written, raw := Text.trim (after.textSince cursor.index) }
      after := by
  unfold nestedCall
  rw [run_get_bind, run_bind_of_ok named]
  dsimp only
  rw [← fullName, run_bind_of_ok called, run_get_bind]
  rfl

/-- One turn of the loop takes an argument, and a comma decides whether there is another one. -/
theorem run_arguments_succ {defaultKey : Text} {bound : Nat}
    {before : List (Argument ArgumentValue)} {found : Argument ArgumentValue} {middle : Cursor}
    (goesOn : (cursor.isAt .roundClose || cursor.isAtEnd) = false)
    (run : argument naming call defaultKey before cursor = .ok found middle) :
    arguments naming call defaultKey (bound + 1) before cursor =
      if middle.skipBreaks.isAt .comma then
        arguments naming call defaultKey bound
          (before ++ [found]) middle.skipBreaks.advance.skipBreaks
      else .ok (before ++ [found]) middle.skipBreaks := by
  rw [arguments, run_get_bind, goesOn, if_neg Bool.false_ne_true, run_bind_of_ok run,
    run_bind_of_ok (run_move _ _), run_bind_of_ok (run_accept _ _)]
  cases comma : middle.skipBreaks.isAt .comma with
  | true =>
      rw [if_pos rfl, if_pos rfl, run_bind_of_ok (run_move _ _), Cursor.accept_of_isAt comma]
  | false =>
      rw [if_neg Bool.false_ne_true, if_neg Bool.false_ne_true, Cursor.accept_of_not_isAt comma]
      rfl

/-- A call with parentheses has arguments up to the one that closes it, and any
other call is bare. -/
theorem call_cases {depth : Nat} {name : Text} {found : Annotation} {after : Cursor}
    (run : Grammar.call naming depth name cursor = .ok found after) :
    cursor.isAt .roundOpen = false ∧ found = naming.callOf name ∧ after = cursor ∨
      cursor.isAt .roundOpen = true ∧ ∃ inner bound known closing, depth = inner + 1 ∧
        arguments naming (Grammar.call naming inner) (naming.callOf name).defaultKey bound
          [] cursor.advance.skipBreaks =
          .ok known closing ∧
        closing.kind? = some .roundClose ∧ after = closing.advance ∧
        found = { naming.callOf name with parenthesised := true, arguments := known } := by
  cases depth with
  | zero => cases run
  | succ inner =>
      unfold Grammar.call at run
      rw [run_get_bind] at run
      dsimp only at run
      split at run
      next opens =>
        rw [run_bind_of_ok (run_advance _), run_bind_of_ok (run_move _ _), run_get_bind] at run
        obtain ⟨known, closing, read, run⟩ := bind_eq_ok.mp run
        obtain ⟨_, _, expected, finished⟩ := bind_eq_ok.mp run
        obtain ⟨stands, -, rfl⟩ := expect_eq_ok expected
        cases finished
        exact Or.inr ⟨opens, inner, _, known, closing, rfl, read, stands, rfl, rfl⟩
      next bare =>
        cases run
        exact Or.inl ⟨Bool.eq_false_iff.mpr bare, rfl, rfl⟩

theorem nestedCall_cases {found : Annotation} {after : Cursor}
    (run : nestedCall naming call cursor = .ok found after) :
    ∃ written middle read raw, writtenName cursor = .ok written middle ∧
      call (fullName naming written) middle = .ok read after ∧
      found = { read with writtenName := some written, raw } := by
  unfold nestedCall at run
  rw [run_get_bind] at run
  obtain ⟨written, middle, named, run⟩ := bind_eq_ok.mp run
  dsimp only at run
  obtain ⟨read, _, called, run⟩ := bind_eq_ok.mp run
  rw [run_get_bind] at run
  cases run
  exact ⟨written, middle, read, _, named, called, rfl⟩

/-- A written name is the text of one token, or of a tag and the name that goes on with it. -/
theorem writtenName_cases {first : Token} {rest : List Token} {written : Text} {after : Cursor}
    (stands : cursor.rest = first :: rest) (run : writtenName cursor = .ok written after) :
    (written = first.text ∧ after.rest = rest.dropWhile fun token => token.kind == .padding) ∨
      ∃ second more, rest = second :: more ∧ second.kind = .name ∧
        Text.startsWith ['@'] first.text = true ∧
        written = first.text ++ second.text ∧
        after.rest = more.dropWhile fun token => token.kind == .padding := by
  unfold writtenName at run
  have later : cursor.step.rest = rest := Cursor.rest_step stands
  rw [run_get_bind, Cursor.text_of_rest stands, run_bind_of_ok (run_step cursor),
    run_get_bind] at run
  split at run
  next goesOn =>
    rw [Bool.and_eq_true] at goesOn
    rw [run_bind_of_ok (run_step _), run_bind_of_ok (run_move _ _)] at run
    cases run
    cases rest with
    | nil =>
        rw [Cursor.isAt, Cursor.kind?, later] at goesOn
        cases goesOn.2
    | cons second more =>
        rw [Cursor.isAt_of_rest later, beq_iff_eq] at goesOn
        refine Or.inr ⟨second, more, rfl, goesOn.2, goesOn.1, by rw [Cursor.text_of_rest later], ?_⟩
        rw [Cursor.skipPadding, Cursor.skipWhile, Cursor.rest_step later]
  next =>
    rw [run_bind_of_ok (run_move _ _)] at run
    cases run
    refine Or.inl ⟨rfl, ?_⟩
    rw [Cursor.skipPadding, Cursor.skipWhile, later]

theorem argument_cases {defaultKey : Text} {before : List (Argument ArgumentValue)}
    {found : Argument ArgumentValue}
    {after : Cursor} (run : argument naming call defaultKey before cursor = .ok found after) :
    (opensKey cursor.rest = true ∧ ∃ written, found = ⟨cursor.text, written, false⟩ ∧
        value naming call cursor.advance.advance.skipBreaks = .ok written after) ∨
      opensKey cursor.rest = false ∧
      ∃ written, found = ⟨positionalKey defaultKey before, written, true⟩ ∧
        value naming call cursor = .ok written after := by
  unfold argument at run
  rw [run_get_bind, isAt_and_isAt_eq] at run
  split at run
  next keyed =>
    obtain ⟨key, _, taken, run⟩ := bind_eq_ok.mp run
    cases taken
    obtain ⟨_, _, expected, run⟩ := bind_eq_ok.mp run
    obtain ⟨-, -, rfl⟩ := expect_eq_ok expected
    rw [run_bind_of_ok (run_move _ _)] at run
    obtain ⟨written, _, valued, finished⟩ := bind_eq_ok.mp run
    cases finished
    exact Or.inl ⟨keyed, written, rfl, valued⟩
  next keyless =>
    obtain ⟨written, _, valued, finished⟩ := bind_eq_ok.mp run
    cases finished
    exact Or.inr ⟨Bool.eq_false_iff.mpr keyless, written, rfl, valued⟩

theorem arguments_cases {defaultKey : Text} {bound : Nat}
    {before known : List (Argument ArgumentValue)}
    {after : Cursor} (run : arguments naming call defaultKey (bound + 1) before cursor =
      .ok known after) :
    ((cursor.isAt .roundClose || cursor.isAtEnd) = true ∧ known = before ∧ after = cursor) ∨
      (cursor.isAt .roundClose || cursor.isAtEnd) = false ∧ ∃ found middle,
        argument naming call defaultKey before cursor = .ok found middle ∧
        (middle.skipBreaks.isAt .comma = true ∧
            arguments naming call defaultKey bound
              (before ++ [found]) middle.skipBreaks.advance.skipBreaks =
              .ok known after ∨
          middle.skipBreaks.isAt .comma = false ∧ known = before ++ [found] ∧
          after = middle.skipBreaks) := by
  cases stops : cursor.isAt .roundClose || cursor.isAtEnd with
  | true =>
      rw [arguments, run_get_bind, stops, if_pos rfl] at run
      cases run
      exact Or.inl ⟨rfl, rfl, rfl⟩
  | false =>
      cases read : argument naming call defaultKey before cursor with
      | error failure middle =>
          rw [arguments, run_get_bind, stops, if_neg Bool.false_ne_true,
            run_bind_of_error read] at run
          cases run
      | ok found middle =>
          rw [run_arguments_succ stops read] at run
          refine Or.inr ⟨rfl, found, middle, rfl, ?_⟩
          split at run
          next comma => exact Or.inl ⟨comma, run⟩
          next last =>
            cases run
            exact Or.inr ⟨Bool.eq_false_iff.mpr last, rfl, rfl⟩

end Turns

/-! ## Payloads -/

/-- Where the call of a payload begins, and the name that is written in front of it. -/
inductive StartsCall (cursor : Cursor) : Option Text → Cursor → Prop where
  | unnamed (opens : cursor.kind? = some .roundOpen) : StartsCall cursor none cursor
  | named (name : cursor.kind? = some .name) (opens : cursor.nextKind? = some .roundOpen) :
      StartsCall cursor (some cursor.text) cursor.step

namespace StartsCall

variable {cursor start : Cursor} {written : Option Text}

theorem kind? (starts : StartsCall cursor written start) :
    cursor.kind? = some .roundOpen ∨ cursor.kind? = some .name := by
  cases starts with
  | unnamed opens => exact .inl opens
  | named name _ => exact .inr name

theorem opens (starts : StartsCall cursor written start) : start.isAt .roundOpen = true := by
  cases starts with
  | unnamed opens => exact beq_iff_eq.mpr opens
  | named _ opens => rw [Cursor.isAt, Cursor.kind?_step, opens, beq_self_eq_true]

theorem tokens_eq (starts : StartsCall cursor written start) : start.tokens = cursor.tokens := by
  cases starts with
  | unnamed => rfl
  | named => exact Cursor.tokens_step _

end StartsCall

theorem run_payloadCall {naming : Naming} {name payload : Text} {written : Option Text}
    {cursor start after : Cursor}
    {found : Annotation} (starts : StartsCall cursor.skipBreaks written start)
    (run : call naming (cursor.skipBreaks.rest.length + 1) name start = .ok found after) :
    payloadCall naming name payload cursor =
      .ok (some { found with writtenName := written, raw := Text.trim payload }) after := by
  unfold payloadCall
  rw [run_bind_of_ok (run_move _ _), run_get_bind]
  dsimp only
  cases starts with
  | unnamed opens =>
      rw [opens]
      dsimp only
      rw [run_bind_of_ok run]
      rfl
  | named name opens =>
      rw [name]
      dsimp only
      rw [opens, beq_self_eq_true, if_pos rfl, run_bind_of_ok (run_step _), run_bind_of_ok run]
      rfl

/-- A payload that is an annotation has nothing in it, or else a call. -/
theorem payloadCall_cases {naming : Naming} {name payload : Text} {cursor after : Cursor}
    {result : Annotation} (run : payloadCall naming name payload cursor = .ok (some result) after) :
    cursor.skipBreaks.kind? = none ∧ result = naming.callOf name ∧ after = cursor.skipBreaks ∨
      ∃ written start found, StartsCall cursor.skipBreaks written start ∧
        call naming (cursor.skipBreaks.rest.length + 1) name start = .ok found after ∧
        result = { found with writtenName := written, raw := Text.trim payload } := by
  obtain ⟨_, _, moved, run⟩ := bind_eq_ok.mp run
  cases moved
  rw [run_get_bind] at run
  dsimp only at run
  cases here : cursor.skipBreaks.kind? with
  | none =>
      rw [here] at run
      cases run
      exact Or.inl ⟨rfl, rfl, rfl⟩
  | some kind =>
      rw [here] at run
      cases kind
      case roundOpen =>
        obtain ⟨found, middle, called, finished⟩ := bind_eq_ok.mp run
        cases finished
        exact Or.inr ⟨none, _, found, .unnamed here, called, rfl⟩
      case name =>
        dsimp only at run
        split at run
        next opens =>
          obtain ⟨_, _, stepped, run⟩ := bind_eq_ok.mp run
          cases stepped
          obtain ⟨found, middle, called, finished⟩ := bind_eq_ok.mp run
          cases finished
          exact Or.inr ⟨_, _, found, .named here (beq_iff_eq.mp opens), called, rfl⟩
        next => cases run
      all_goals cases run

end Grammar

end Annotation

end DocComment
