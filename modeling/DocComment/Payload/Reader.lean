import DocComment.Payload.Basic
import DocComment.TypeExpr.Reader

/-!
# Reading payloads

A plain payload ends with its line, but goes on behind a line break while a
parenthesis is open.  A typed payload is a subject and a description; the
description takes in the lines that follow until one is blank, starts with a
tag or closes the comment.
-/

namespace DocComment

namespace Payload

namespace Grammar

/-! ## Plain payloads -/

/-- How many tokens belong to a plain payload, whose parentheses are open to the given depth. -/
def plainLength : Nat → List Token → Nat
  | _, [] => 0
  | depth, token :: rest =>
      match token.kind with
      | .closing => 0
      | .lineBreak => if depth = 0 then 0 else plainLength depth rest + 1
      | .roundOpen => plainLength (depth + 1) rest + 1
      | .roundClose => plainLength (depth - 1) rest + 1
      | _ => plainLength depth rest + 1

/--
The text of tokens with a bare line feed for every line break.  Padding that
follows a line break loses the space that separates it from the decoration.
-/
def undecorated : Bool → List Token → Text
  | _, [] => []
  | afterBreak, token :: rest =>
      if token.kind = .lineBreak then '\n' :: undecorated true rest
      else if afterBreak && token.kind = .padding then
        Text.dropSpace token.text ++ undecorated false rest
      else token.text ++ undecorated false rest

/-- Take a plain payload. -/
def plainText : Read Text := do
  let tokens ← Read.takeTokens (plainLength 0 (← get).rest)
  return Text.trimEnd (undecorated false tokens)

/-! ## Subjects -/

/-- Whether a parameter without a type stands here. -/
def isAtParameter (cursor : Cursor) : Bool :=
  ((cursor.accept .ampersand).accept .ellipsis).isAt .varName

/-- Fail unless padding or the end of the line separates the cursor from what is in front. -/
def expectSeparated : Read Unit := do
  let cursor ← get
  if cursor.isAtLineEnd || cursor.isAfterPadding then return ()
  else Read.failExpecting .padding

/-- Take a type, unless the cursor is already at what follows it. -/
def typeUnless (absent : Bool) : Read (Option TypeExpr) :=
  if absent then return none else return some (← TypeExpr.read)

/-- Take a subject of the given kind. -/
def subject : Subject.Kind → Read Subject
  | .param => do
      let type ← typeUnless (isAtParameter (← get))
      let byReference ← Read.accept .ampersand
      let variadic ← Read.accept .ellipsis
      let name ← Read.expect .varName
      expectSeparated
      return .param type byReference variadic name.text
  | .returned => do
      let type ← TypeExpr.read
      expectSeparated
      return .returned type
  | .var => do
      let type ← typeUnless ((← get).isAt .varName)
      let name ← TypeExpr.Grammar.acceptVariable
      expectSeparated
      return .var type name
  | .thrown => do
      let type ← TypeExpr.read
      expectSeparated
      return .thrown type

/-! ## Descriptions -/

/-- Take the rest of the line, without the blanks around it. -/
def restOfLine : Read Text := do
  let start := (← get).index
  Read.move Cursor.toLineEnd
  return Text.trim ((← get).textSince start)

/-- Whether the line behind a line break continues a description. -/
def continues (cursor : Cursor) : Bool :=
  cursor.isAt .lineBreak &&
    match cursor.advance.kind? with
    | none | some .lineBreak | some .closing | some .tag => false
    | _ => true

/-- Take the lines that continue a description, each with its indentation. -/
def furtherLines : Nat → Read (List Text)
  | 0 => return []
  | bound + 1 => do
      let cursor ← get
      if continues cursor then
        Read.step
        Read.move Cursor.toLineEnd
        let line := Text.trimEnd (Text.dropSpace ((← get).textSince (cursor.index + 1)))
        return line :: (← furtherLines bound)
      else return []

/--
Take a description: its words with single spaces, and the text as it was
written where that is another one.
-/
def description : Read (Text × Option Text) := do
  let first ← restOfLine
  if first.isEmpty then return ([], none)
  else
    let lines := first :: (← furtherLines (← get).rest.length)
    let collapsed := Text.join [' '] (lines.flatMap Text.words)
    let written := Text.join ['\n'] lines
    return (collapsed, if written = collapsed then none else some written)

/-- Take a typed payload, with its description as it was written. -/
def typedWithWording (kind : Subject.Kind) : Read (Payload × Option Text) := do
  let subject ← subject kind
  let (description, wording) ← description
  return (.typed subject description, wording)

end Grammar

end Payload

end DocComment
