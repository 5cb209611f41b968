import DocComment.Token.Basic

/-!
# Cursors

A cursor is a place in a list of tokens: the tokens behind it, the nearest one
first, and the tokens that remain.  Every ordinary move takes tokens from the
second list to the first, so the tokens themselves and their order stay the
same (`tokens_skipWhile`, `tokens_advance`).
-/

namespace DocComment

/-- A place in a list of tokens. -/
structure Cursor where
  /-- The tokens behind the place, the nearest one first. -/
  passed : List Token
  /-- The tokens that remain. -/
  rest : List Token
deriving DecidableEq, Repr, Inhabited

namespace Cursor

/-! ## Looking -/

/-- All tokens in their order. -/
def tokens (cursor : Cursor) : List Token :=
  cursor.passed.reverse ++ cursor.rest

/-- The place of the cursor. -/
def index (cursor : Cursor) : Nat :=
  cursor.passed.length

/-- Whether no token remains. -/
def isAtEnd (cursor : Cursor) : Bool :=
  cursor.rest.isEmpty

/-- The kind of the token at the cursor. -/
def kind? (cursor : Cursor) : Option Token.Kind :=
  cursor.rest.head?.map Token.kind

/-- The text of the token at the cursor, empty at the end. -/
def text (cursor : Cursor) : Text :=
  match cursor.rest with
  | [] => []
  | token :: _ => token.text

/-- Whether the token at the cursor has the given kind. -/
def isAt (kind : Token.Kind) (cursor : Cursor) : Bool :=
  cursor.kind? == some kind

/-- The kind of the token right behind the one at the cursor. -/
def nextKind? (cursor : Cursor) : Option Token.Kind :=
  cursor.rest.tail.head?.map Token.kind

/-- Whether padding stands right in front of the cursor. -/
def isAfterPadding (cursor : Cursor) : Bool :=
  match cursor.passed with
  | [] => false
  | token :: _ => token.kind == .padding

/-- Whether the cursor is at a line break, at the closing marker or at the end. -/
def isAtLineEnd (cursor : Cursor) : Bool :=
  match cursor.kind? with
  | none | some .lineBreak | some .closing => true
  | _ => false

/-- Whether the cursor is at the closing marker or at the end. -/
def isAtClose (cursor : Cursor) : Bool :=
  cursor.isAtEnd || cursor.isAt .closing

/--
The place behind the last token in front of the cursor that is not padding,
but no place in front of `floor`.
-/
def significantEnd (floor : Nat) (cursor : Cursor) : Nat :=
  let paddings := (cursor.passed.takeWhile fun token => token.kind == .padding).length
  cursor.index - min (cursor.index - floor) paddings

/-- The text of the tokens from place `start` up to the cursor. -/
def textSince (start : Nat) (cursor : Cursor) : Text :=
  Token.textOf (cursor.passed.take (cursor.index - start)).reverse

/-! ## Moving -/

/-- Move over all tokens up to the first one whose kind is not in a class. -/
def skipWhile (p : Token.Kind → Bool) (cursor : Cursor) : Cursor :=
  ⟨(cursor.rest.takeWhile fun token => p token.kind).reverse ++ cursor.passed,
    cursor.rest.dropWhile fun token => p token.kind⟩

/-- Move over padding. -/
def skipPadding (cursor : Cursor) : Cursor :=
  cursor.skipWhile (· == .padding)

/-- Move over padding and line breaks. -/
def skipBreaks (cursor : Cursor) : Cursor :=
  cursor.skipWhile fun kind => kind == .padding || kind == .lineBreak

/-- Move over one token, if one remains. -/
def step (cursor : Cursor) : Cursor :=
  match cursor.rest with
  | [] => cursor
  | token :: rest => ⟨token :: cursor.passed, rest⟩

/-- Move over a number of tokens, or over all that remain. -/
def forward (count : Nat) (cursor : Cursor) : Cursor :=
  ⟨(cursor.rest.take count).reverse ++ cursor.passed, cursor.rest.drop count⟩

/-- Move over one token and the padding behind it. -/
def advance (cursor : Cursor) : Cursor :=
  cursor.step.skipPadding

/-- Move over a token of the given kind, if the cursor is at one. -/
def accept (kind : Token.Kind) (cursor : Cursor) : Cursor :=
  if cursor.isAt kind then cursor.advance else cursor

/-- Move up to the end of the line. -/
def toLineEnd (cursor : Cursor) : Cursor :=
  cursor.skipWhile fun kind => kind != .lineBreak && kind != .closing

/-- The cursor at a place in a list of tokens and behind the padding there. -/
def placed (tokens : List Token) (place : Nat) : Cursor :=
  skipPadding ⟨(tokens.take place).reverse, tokens.drop place⟩

/-- Move to a place, in either direction, and behind the padding there. -/
def jumpTo (place : Nat) (cursor : Cursor) : Cursor :=
  placed cursor.tokens place

/-- The cursor in front of a list of tokens. -/
def ofTokens (tokens : List Token) : Cursor :=
  placed tokens 0

/-! ## Moves keep the tokens -/

@[simp]
theorem tokens_skipWhile (p : Token.Kind → Bool) (cursor : Cursor) :
    (cursor.skipWhile p).tokens = cursor.tokens := by
  simp [skipWhile, tokens, List.takeWhile_append_dropWhile]

@[simp]
theorem tokens_step (cursor : Cursor) : cursor.step.tokens = cursor.tokens := by
  unfold step
  split <;> simp_all [tokens]

@[simp]
theorem tokens_forward (count : Nat) (cursor : Cursor) :
    (cursor.forward count).tokens = cursor.tokens := by
  simp [forward, tokens]

@[simp]
theorem tokens_advance (cursor : Cursor) : cursor.advance.tokens = cursor.tokens := by
  simp [advance, skipPadding]

@[simp]
theorem tokens_placed (tokens : List Token) (place : Nat) :
    (placed tokens place).tokens = tokens := by
  simp [placed, skipPadding]
  simp [Cursor.tokens]

@[simp]
theorem tokens_jumpTo (place : Nat) (cursor : Cursor) :
    (cursor.jumpTo place).tokens = cursor.tokens :=
  tokens_placed _ _

end Cursor

end DocComment
