import DocComment.Annotation.Naming
import DocComment.Read
import DocComment.Token.Scan

/-!
# Reading annotations

A payload is an annotation when it has the shape of a call: nothing at all, or
parentheses that a name may precede.  It is scanned on its own.  A payload of
another shape is no annotation; one that begins as a call and does not go on
as one is a failure.
-/

namespace DocComment

namespace Annotation

namespace Grammar

/-! ## Literals -/

/-- How many tokens belong to a literal, whose brackets are open to the given depth. -/
def literalLength : Nat → List Token → Nat
  | _, [] => 0
  | depth, token :: rest =>
      match token.kind with
      | .comma => if depth = 0 then 0 else literalLength depth rest + 1
      | .roundClose => if depth = 0 then 0 else literalLength (depth - 1) rest + 1
      | .roundOpen | .curlyOpen | .squareOpen => literalLength (depth + 1) rest + 1
      | .curlyClose | .squareClose => literalLength (depth - 1) rest + 1
      | _ => literalLength depth rest + 1

/-- The text of a literal, in which a space stands for every line break. -/
def literalText (tokens : List Token) : Text :=
  Text.trim (tokens.flatMap fun token => if token.kind = .lineBreak then [' '] else token.text)

/-- Take a scalar or a collection, up to the comma or the parenthesis that ends it. -/
def literal : Read Text := do
  return literalText (← Read.takeTokens (literalLength 0 (← get).rest))

/-! ## Values and arguments -/

variable (naming : Naming)

/-- Take the name of a nested call as it is written. -/
def writtenName : Read Text := do
  let first := (← get).text
  Read.step
  let cursor ← get
  if Text.startsWith ['@'] first && cursor.isAt .name then
    Read.step
    Read.move Cursor.skipPadding
    return first ++ cursor.text
  else
    Read.move Cursor.skipPadding
    return first

/-- A call inside the arguments of another one. -/
def nestedCall (call : Text → Read Annotation) : Read Annotation := do
  let start := (← get).index
  let written ← writtenName
  let name := (naming.resolve written).getD (written.dropWhile (· == '@'))
  let read ← call name
  let raw := Text.trim ((← get).textSince start)
  return { read with writtenName := some written, raw }

/-- The value of an argument. -/
def value (call : Text → Read Annotation) : Read ArgumentValue := do
  let cursor ← get
  match cursor.kind? with
  | some .quoted =>
      let written ← Read.takeText
      return .quoted (Text.Quoted.decode written) (written.headD '"')
  | some .tag => return .nested (← nestedCall naming call)
  | some .name =>
      if cursor.nextKind? == some .roundOpen then return .nested (← nestedCall naming call)
      else return .literal (← literal)
  | _ => return .literal (← literal)

/--
The key of a positional argument behind the given ones: the default key for
the first positional argument, and its place for any other.
-/
def positionalKey (defaultKey : Text) (before : List (Argument ArgumentValue)) : Text :=
  if before.any Argument.positional then Text.ofNat before.length else defaultKey

/-- An argument behind the given ones. -/
def argument (call : Text → Read Annotation) (defaultKey : Text)
    (before : List (Argument ArgumentValue)) : Read (Argument ArgumentValue) := do
  let cursor ← get
  if cursor.isAt .name && cursor.advance.isAt .equals then
    let key ← Read.takeText
    let _ ← Read.expect .equals
    Read.move Cursor.skipBreaks
    return ⟨key, ← value naming call, false⟩
  else
    return ⟨positionalKey defaultKey before, ← value naming call, true⟩

/-- The arguments of a call behind the given ones. -/
def arguments (call : Text → Read Annotation) (defaultKey : Text) :
    Nat → List (Argument ArgumentValue) → Read (List (Argument ArgumentValue))
  | 0, before => return before
  | bound + 1, before => do
      let cursor ← get
      if cursor.isAt .roundClose || cursor.isAtEnd then
        return before
      else
        let next ← argument naming call defaultKey before
        let known := before ++ [next]
        Read.move Cursor.skipBreaks
        if ← Read.accept .comma then
          Read.move Cursor.skipBreaks
          arguments call defaultKey bound known
        else return known

/-- The call of a class, with parentheses open to the given depth. -/
def call : Nat → Text → Read Annotation
  | 0, _ => Read.failExpecting .roundClose
  | depth + 1, name => do
      let bare := naming.callOf name
      if (← get).isAt .roundOpen then
        Read.advance
        Read.move Cursor.skipBreaks
        let bound := (← get).rest.length + 1
        let known ← arguments naming (call depth) bare.defaultKey bound []
        let _ ← Read.expect .roundClose
        return { bare with parenthesised := true, arguments := known }
      else return bare

/-! ## Payloads -/

/-- The call that a payload holds, for the class of the given name. -/
def payloadCall (name payload : Text) : Read (Option Annotation) := do
  Read.move Cursor.skipBreaks
  let cursor ← get
  let depth := cursor.rest.length + 1
  let finished (written : Option Text) : Read (Option Annotation) := do
    let read ← call naming depth name
    return some { read with writtenName := written, raw := Text.trim payload }
  match cursor.kind? with
  | none => return some (naming.callOf name)
  | some .roundOpen => finished none
  | some .name =>
      if cursor.nextKind? == some .roundOpen then
        Read.step
        finished (some cursor.text)
      else return none
  | _ => return none

end Grammar

/-- The annotation that a payload holds, if it has the shape of a call. -/
def ofPayload (naming : Naming) (name payload : Text) : Except Failure (Option Annotation) :=
  (Grammar.payloadCall naming name payload).valueAt (Cursor.ofTokens (Token.scan payload))

end Annotation

end DocComment
