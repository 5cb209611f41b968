import DocComment.Token.Basic
import DocComment.Text.Blank

/-!
# Scanning

`Token.scan` cuts a text into tokens.  At every place the longest piece of a
known kind is taken.  Where none begins, the characters that a failed attempt
has read become text of kind `other`, and neighbours of that kind are joined.

The main statement is `textOf_scan`: no character is lost or changed.
-/

namespace DocComment

namespace Token

/-! ## Character classes -/

/-- An ASCII letter or an underscore, with which every name starts. -/
def isNameStart (c : Char) : Bool :=
  c.isAlpha || c == '_'

/-- A character that may follow in a variable. -/
def isVariableChar (c : Char) : Bool :=
  c.isAlphanum || c == '_'

/-- A character that may follow in a tag or in a segment of a name. -/
def isNameChar (c : Char) : Bool :=
  isVariableChar c || c == '-'

/-! ## Lengths of pieces

Each of these functions looks at what follows the first character of a piece
and counts how many more characters belong to it.
-/

/-- How many characters at the start of a text belong to a class. -/
def runLength (p : Char → Bool) (text : Text) : Nat :=
  (text.takeWhile p).length

/-- The indentation behind a line feed and the star after it, unless the star closes the comment. -/
def decorationLength (text : Text) : Nat :=
  let indentation := runLength isPadding text
  match text.drop indentation with
  | '*' :: '/' :: _ => indentation
  | '*' :: _ => indentation + 1
  | _ => indentation

/-- The rest of a name of one or more segments, of which the first has begun. -/
def segmentsLength : Text → Nat
  | [] => 0
  | [c] => if isNameChar c then 1 else 0
  | c :: d :: rest =>
      if isNameChar c then segmentsLength (d :: rest) + 1
      else if c = '\\' && isNameStart d then segmentsLength rest + 2
      else 0

/-- Whether a quote is closed on its line, and how many characters are read to find out. -/
def quotedLength (quote : Char) : Text → Bool × Nat
  | [] => (false, 0)
  | [c] => if c = '\n' then (false, 0) else (c == quote, 1)
  | c :: d :: rest =>
      if c = '\n' then (false, 0)
      else if c = quote then (true, 1)
      else if c = '\\' then
        if d = '\n' then (false, 1)
        else
          let (closed, more) := quotedLength quote rest
          (closed, more + 2)
      else
        let (closed, more) := quotedLength quote (d :: rest)
        (closed, more + 1)

/-- The rest of a number of which a digit has been read. -/
def numberLength (text : Text) : Nat :=
  let whole := runLength Char.isDigit text
  match text.drop whole with
  | '.' :: fraction =>
      match runLength Char.isDigit fraction with
      | 0 => whole
      | digits => whole + 1 + digits
  | _ => whole

/-- The kind of a character that is a token by itself. -/
def markKind? : Char → Option Kind
  | '(' => some .roundOpen
  | ')' => some .roundClose
  | '<' => some .angleOpen
  | '>' => some .angleClose
  | '[' => some .squareOpen
  | ']' => some .squareClose
  | '{' => some .curlyOpen
  | '}' => some .curlyClose
  | ',' => some .comma
  | ':' => some .colon
  | '=' => some .equals
  | '|' => some .bar
  | '&' => some .ampersand
  | '?' => some .question
  | _ => none

/-- A piece that a marking character opens and a name must follow. -/
def markedPiece (kind : Kind) (p : Char → Bool) : Text → Kind × Nat
  | [] => (.other, 0)
  | c :: rest => if isNameStart c then (kind, runLength p rest + 1) else (.other, 0)

/-- The kind of the piece that starts with `c`, and how many characters of the rest belong to it. -/
def piece (c : Char) (rest : Text) : Kind × Nat :=
  if c = '\n' then (.lineBreak, decorationLength rest)
  else if c = '\r' then
    match rest with
    | '\n' :: more => (.lineBreak, decorationLength more + 1)
    | _ => (.other, 0)
  else if isPadding c then (.padding, runLength isPadding rest)
  else if c = '/' then
    match rest with
    | '*' :: '*' :: _ => (.opening, 2)
    | '*' :: _ => (.other, 1)
    | _ => (.other, 0)
  else if c = '*' then
    match rest with
    | '/' :: _ => (.closing, 1)
    | _ => (.other, 0)
  else if c = '@' then markedPiece .tag isNameChar rest
  else if c = '$' then markedPiece .varName isVariableChar rest
  else if c = '\\' then
    match rest with
    | d :: more => if isNameStart d then (.name, segmentsLength more + 1) else (.other, 0)
    | [] => (.other, 0)
  else if isNameStart c then (.name, segmentsLength rest)
  else if c = '"' || c = '\'' then
    let (closed, length) := quotedLength c rest
    (if closed then .quoted else .other, length)
  else if c.isDigit then (.number, numberLength rest)
  else if c = '-' then
    match rest with
    | d :: more => if d.isDigit then (.number, numberLength more + 1) else (.other, 0)
    | [] => (.other, 0)
  else if c = '.' then
    match rest with
    | '.' :: '.' :: _ => (.ellipsis, 2)
    | '.' :: _ => (.other, 1)
    | _ => (.other, 0)
  else
    match markKind? c with
    | some kind => (kind, 0)
    | none => (.other, 0)

/-! ## The scanner -/

/-- Put a token in front of others, joining two of kind `other`. -/
def prepend (token : Token) : List Token → List Token
  | [] => [token]
  | next :: tokens =>
      if token.kind = .other ∧ next.kind = .other then
        ⟨.other, token.text ++ next.text⟩ :: tokens
      else token :: next :: tokens

/-- The tokens of a text behind the first `skip` characters. -/
def scanFrom : Nat → Text → List Token
  | _, [] => []
  | skip + 1, _ :: rest => scanFrom skip rest
  | 0, c :: rest =>
      let (kind, length) := piece c rest
      prepend ⟨kind, c :: rest.take length⟩ (scanFrom length rest)

/-- The tokens of a text. -/
def scan (text : Text) : List Token :=
  scanFrom 0 text

/-! ## Nothing is lost -/

@[simp]
theorem textOf_prepend (token : Token) (tokens : List Token) :
    textOf (prepend token tokens) = token.text ++ textOf tokens := by
  cases tokens with
  | nil => rfl
  | cons next tokens =>
      simp only [prepend]
      split <;> simp

theorem textOf_scanFrom (skip : Nat) (text : Text) :
    textOf (scanFrom skip text) = text.drop skip := by
  induction text generalizing skip with
  | nil => simp [scanFrom]
  | cons c rest ih =>
      cases skip with
      | zero => simp [scanFrom, ih]
      | succ skip => simpa [scanFrom] using ih skip

/-- The texts of the tokens in order are the text that was scanned. -/
theorem textOf_scan (text : Text) : textOf (scan text) = text :=
  textOf_scanFrom 0 text

end Token

end DocComment
