import DocComment.Failure
import DocComment.Token.Cursor

/-!
# Readers

A reader moves a cursor and gives a value or fails.  A failure keeps the place
where it arose.  Going back after a failure is explicit: `attempt` gives the
cursor of before.
-/

namespace DocComment

/-- A reader of tokens. -/
abbrev Read := EStateM Failure Cursor

namespace Read

/-- Apply a move to the cursor. -/
def move (f : Cursor → Cursor) : Read Unit :=
  modify f

/-- Move over one token and the padding behind it. -/
def advance : Read Unit :=
  move Cursor.advance

/-- Move over one token. -/
def step : Read Unit :=
  move Cursor.step

/-- Fail because a token of the given kind had to stand here. -/
def failExpecting {α : Type} (expected : Token.Kind) : Read α := do
  let cursor ← get
  throw (.unexpected expected (cursor.rest.head?.map Token.text) cursor.index)

/-- Take a token of the given kind or fail. -/
def expect (kind : Token.Kind) : Read Token := do
  match (← get).rest with
  | [] => failExpecting kind
  | token :: _ =>
      if token.kind = kind then
        advance
        return token
      else failExpecting kind

/-- Take a token of the given kind if one stands here, and tell whether one did. -/
def accept (kind : Token.Kind) : Read Bool := do
  if (← get).isAt kind then
    advance
    return true
  else return false

/-- Take the text of the token at the cursor. -/
def takeText : Read Text := do
  let text := (← get).text
  advance
  return text

/-- Take a number of tokens. -/
def takeTokens (count : Nat) : Read (List Token) := do
  let tokens := (← get).rest.take count
  move (Cursor.forward count)
  return tokens

/--
Further items of a list, each announced by a separator.  The number bounds how
many are read; every separator takes a token, so the count of the remaining
tokens is enough.
-/
def further {α : Type} (separator : Read Bool) (item : Read α) : Nat → Read (List α)
  | 0 => return []
  | bound + 1 => do
      if ← separator then
        let first ← item
        let others ← further separator item bound
        return first :: others
      else return []

/-- All further items of a list, each announced by a separator. -/
def allFurther {α : Type} (separator : Read Bool) (item : Read α) : Read (List α) := do
  further separator item (← get).rest.length

/-- The value of a reader, or the cursor as it was before if the reader fails. -/
def attempt {α : Type} (read : Read α) : Read (Option α) := fun cursor =>
  match read cursor with
  | .ok value after => .ok (some value) after
  | .error _ _ => .ok none cursor

/-- The value that a reader gives at a cursor. -/
def valueAt {α : Type} (read : Read α) (cursor : Cursor) : Except Failure α :=
  match read cursor with
  | .ok value _ => .ok value
  | .error failure _ => .error failure

end Read

end DocComment
