import DocComment.Text.Blank
import DocComment.Text.Numeral
import DocComment.Text.Search

/-!
# Quoted texts

Writing and reading of quoted values.  A value between single quotes is
written as it is.  Between any other quotes a backslash stands in front of
every backslash and of every quote.  Reading follows the quoting of a command
shell: it switches between three modes at the quotes, copies what stands in
single quotes, and interprets escapes in double quotes.
-/

namespace DocComment

namespace Text

/-- The character with the given code point. -/
def charOfCode? (code : Nat) : Option Char :=
  if code.isValidChar then some (Char.ofNat code) else none

namespace Quoted

/-- The text of a value between quotes. -/
def encode (quote : Char) (value : Text) : Text :=
  if quote = '\'' then quote :: value ++ [quote]
  else
    let escaped := replaceChar quote ['\\', quote] (replaceChar '\\' ['\\', '\\'] value)
    quote :: escaped ++ [quote]

/-- Where a reader of quoted text stands. -/
inductive Mode where
  /-- No quote is open. -/
  | outside
  /-- A single quote is open. -/
  | single
  /-- A double quote is open. -/
  | double
  /-- A backslash was read between double quotes. -/
  | escape
  /-- The opening brace of a code point must follow. -/
  | brace
  /-- The digits of a code point are being read, the last one first. -/
  | code (digits : Text)

/-- The character that a backslash and the given character stand for. -/
def escaped? : Char → Option Char
  | 'a' => some '\x07'
  | 'b' => some '\x08'
  | 'v' => some '\x0b'
  | 'f' => some '\x0c'
  | 'n' => some '\n'
  | 'r' => some '\r'
  | 't' => some '\t'
  | 'e' => some '\x1b'
  | 'E' => some '\x1b'
  | '\\' => some '\\'
  | '\'' => some '\''
  | '"' => some '"'
  | '$' => some '$'
  | '\x60' => some '\x60'
  | ' ' => some ' '
  | _ => none

/-- The character named by hexadecimal digits, which a plus sign may precede. -/
def namedChar? (written : Text) : Option Char :=
  let digits := match written with
    | '+' :: digits => digits
    | digits => digits
  (hexValue? digits).bind charOfCode?

/-- Read a quoted text from the given mode on. -/
def unescape? : Mode → Text → Option Text
  | .escape, [] => none
  | .brace, [] => none
  | .code digits, [] => (namedChar? digits.reverse).map fun c => [c]
  | _, [] => some []
  | .outside, c :: rest =>
      if c = '\'' then unescape? .single rest
      else if c = '"' then unescape? .double rest
      else (unescape? .outside rest).map (c :: ·)
  | .single, c :: rest =>
      if c = '\'' then unescape? .outside rest
      else (unescape? .single rest).map (c :: ·)
  | .double, c :: rest =>
      if c = '"' then unescape? .outside rest
      else if c = '\\' then unescape? .escape rest
      else (unescape? .double rest).map (c :: ·)
  | .escape, c :: rest =>
      if c = 'u' then unescape? .brace rest
      else do
        let meant ← escaped? c
        (unescape? .double rest).map (meant :: ·)
  | .brace, c :: rest =>
      if c = '{' then unescape? (.code []) rest else none
  | .code digits, c :: rest =>
      if c = '}' then do
        let named ← namedChar? digits.reverse
        (unescape? .double rest).map (named :: ·)
      else unescape? (.code (c :: digits)) rest

/--
The value of a quoted text.  A text with an escape that means nothing keeps
its characters and loses the quotes at both ends.
-/
def decode (written : Text) : Text :=
  (unescape? .outside written).getD (dropAround (fun c => c == '\'' || c == '"') written)

end Quoted

end Text

end DocComment
