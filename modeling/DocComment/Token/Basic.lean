import DocComment.Text.Basic

/-!
# Tokens

A token is a piece of a comment with the kind of thing it is.  Its text is the
exact piece of the source, so the texts of all tokens in order are the source.
A token does not know its place: places are counted by whoever holds the list.
-/

namespace DocComment

namespace Token

/-- The kinds of token. -/
inductive Kind where
  /-- The opening marker, a slash and two stars. -/
  | opening
  /-- The closing marker, a star and a slash. -/
  | closing
  /-- A line break with the indentation and the star of the next line. -/
  | lineBreak
  /-- A run of spaces and tabs. -/
  | padding
  /-- A tag name with its marker. -/
  | tag
  /-- A name, which backslashes may divide into segments. -/
  | name
  /-- A variable with its dollar sign. -/
  | varName
  /-- A text between single or double quotes. -/
  | quoted
  /-- An integer or a decimal fraction. -/
  | number
  | roundOpen
  | roundClose
  | angleOpen
  | angleClose
  | squareOpen
  | squareClose
  | curlyOpen
  | curlyClose
  | comma
  | colon
  | equals
  | bar
  | ampersand
  | question
  /-- Three dots. -/
  | ellipsis
  /-- Anything else. -/
  | other
deriving DecidableEq, Repr, Inhabited

/-- How a message names a kind of token. -/
def Kind.describe : Kind → Text
  | .opening => Text.ticked "/**".toList
  | .closing => Text.ticked "*/".toList
  | .lineBreak => "end of line".toList
  | .padding => "whitespace".toList
  | .tag => "tag".toList
  | .name => "identifier".toList
  | .varName => "variable".toList
  | .quoted => "quoted string".toList
  | .number => "number".toList
  | .roundOpen => Text.ticked ['(']
  | .roundClose => Text.ticked [')']
  | .angleOpen => Text.ticked ['<']
  | .angleClose => Text.ticked ['>']
  | .squareOpen => Text.ticked ['[']
  | .squareClose => Text.ticked [']']
  | .curlyOpen => Text.ticked ['{']
  | .curlyClose => Text.ticked ['}']
  | .comma => Text.ticked [',']
  | .colon => Text.ticked [':']
  | .equals => Text.ticked ['=']
  | .bar => Text.ticked ['|']
  | .ampersand => Text.ticked ['&']
  | .question => Text.ticked ['?']
  | .ellipsis => Text.ticked "...".toList
  | .other => "text".toList

end Token

/-- A piece of a comment. -/
structure Token where
  kind : Token.Kind
  text : Text
deriving DecidableEq, Repr, Inhabited

namespace Token

/-- The text that a list of tokens covers. -/
def textOf (tokens : List Token) : Text :=
  tokens.flatMap Token.text

/-- The text of the tokens from place `start` up to, not including, `stop`. -/
def textBetween (tokens : List Token) (start stop : Nat) : Text :=
  textOf ((tokens.take stop).drop start)

/-- The kind of the token at a place. -/
def kindAt? (tokens : List Token) (place : Nat) : Option Kind :=
  tokens[place]?.map Token.kind

/-- The tokens of a list with their places. -/
def withPlaces (tokens : List Token) : List (Token × Nat) :=
  tokens.zipIdx

@[simp]
theorem textOf_nil : textOf [] = [] := rfl

@[simp]
theorem textOf_cons (token : Token) (tokens : List Token) :
    textOf (token :: tokens) = token.text ++ textOf tokens := rfl

@[simp]
theorem textOf_append (first second : List Token) :
    textOf (first ++ second) = textOf first ++ textOf second :=
  List.flatMap_append

end Token

end DocComment
