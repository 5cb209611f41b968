import DocComment.Text.Blank
import DocComment.Text.Quoted
import DocComment.Toml.Value

/-!
# Reading TOML

A reader of TOML documents.  It takes a text and gives the entries of the
document, or nothing if the text is no such document.  A part of the grammar
that repeats is bounded by the length of the text that it reads.  The parts of
a key and the nesting of values have a bound of their own.
-/

namespace DocComment

namespace Toml

/-- A reader of characters. -/
abbrev Scan := StateT Text Option

namespace Scan

/-! ## Characters -/

/-- Whether a character may stand in a comment or a string. -/
def isPrintable (c : Char) : Bool :=
  c == '\t' || (0x20 ≤ c.toNat && c.toNat != 0x7F)

/-- Take the characters of a class. -/
def takeWhile (p : Char → Bool) : Scan Text := do
  let text ← get
  set (text.dropWhile p)
  return text.takeWhile p

/-- Take a given text, and tell whether it stood here. -/
def accept (opening : Text) : Scan Bool := do
  match Text.after? opening (← get) with
  | some rest =>
      set rest
      return true
  | none => return false

/-- Take a given text or fail. -/
def expect (opening : Text) : Scan Unit := do
  if ← accept opening then return () else failure

/-- Take spaces and tabs. -/
def spaces : Scan Unit := do
  let _ ← takeWhile isPadding

/-- Take a line break, and tell whether one stood here. -/
def acceptBreak : Scan Bool := do
  if ← accept ['\n'] then return true else accept ['\r', '\n']

/-- Take a comment, if one stands here. -/
def comment : Scan Unit := do
  if ← accept ['#'] then
    let _ ← takeWhile isPrintable

/-- Take spaces, comments and line breaks. -/
def trivia : Nat → Scan Unit
  | 0 => return ()
  | bound + 1 => do
      spaces
      comment
      if ← acceptBreak then trivia bound

/-- Take all spaces, comments and line breaks. -/
def allTrivia : Scan Unit := do
  trivia ((← get).length + 1)

/-! ## Strings -/

/-- Take the character that a number of hexadecimal digits names. -/
def codePoint (digits : Nat) : Scan Char := do
  let text ← get
  let written := text.take digits
  if written.length = digits then
    match (Text.hexValue? written).bind Text.charOfCode? with
    | some c =>
        set (text.drop digits)
        return c
    | none => failure
  else failure

/-- Take a character. -/
def anyChar : Scan Char := do
  match ← get with
  | [] => failure
  | c :: rest =>
      set rest
      return c

/-- Take what follows the backslash of an escape. -/
def escape : Scan Char := do
  match ← anyChar with
  | 'b' => return '\x08'
  | 't' => return '\t'
  | 'n' => return '\n'
  | 'f' => return '\x0c'
  | 'r' => return '\r'
  | 'e' => return '\x1b'
  | '"' => return '"'
  | '\\' => return '\\'
  | 'x' => codePoint 2
  | 'u' => codePoint 4
  | 'U' => codePoint 8
  | _ => failure

/-- Take a string on one line up to its closing quote. -/
def lineString (quote : Char) : Nat → Scan Text
  | 0 => failure
  | bound + 1 => do
      let c ← anyChar
      if c = quote then return []
      else if c = '\\' && quote = '"' then
        let meant ← escape
        return meant :: (← lineString quote bound)
      else if isPrintable c then return c :: (← lineString quote bound)
      else failure

/-- Take spaces and line breaks. -/
def blanks : Nat → Scan Unit
  | 0 => return ()
  | bound + 1 => do
      spaces
      if ← acceptBreak then blanks bound

/-- Take the line break behind a backslash and the blanks that follow, and tell whether it is there. -/
def acceptFold : Scan Bool := do
  let text ← get
  spaces
  if ← acceptBreak then
    blanks (text.length + 1)
    return true
  else
    set text
    return false

/--
Take a string on several lines up to its three closing quotes.  Up to two
quotes in front of these belong to the string, and so does every line break as
it is written.
-/
def blockString (quote : Char) : Nat → Scan Text
  | 0 => failure
  | bound + 1 => do
      let text ← get
      let quotes := (text.takeWhile (· == quote)).length
      if 3 ≤ quotes then
        set (text.drop (min quotes 5))
        return List.replicate (min quotes 5 - 3) quote
      else if ← accept ['\n'] then return '\n' :: (← blockString quote bound)
      else if ← accept ['\r', '\n'] then return '\r' :: '\n' :: (← blockString quote bound)
      else
        let c ← anyChar
        if c = '\\' && quote = '"' then
          if ← acceptFold then blockString quote bound
          else
            let meant ← escape
            return meant :: (← blockString quote bound)
        else if isPrintable c then return c :: (← blockString quote bound)
        else failure

/-- Take a string, from its opening quote on. -/
def string (quote : Char) : Scan Text := do
  let bound := (← get).length + 1
  if ← accept [quote, quote, quote] then
    let _ ← acceptBreak
    blockString quote bound
  else
    expect [quote]
    lineString quote bound

/-! ## Keys -/

/-- A character of a key without quotes. -/
def isKeyChar (c : Char) : Bool :=
  c.isAlphanum || c == '_' || c == '-'

/-- Take one part of a key. -/
def simpleKey : Scan Text := do
  match ← get with
  | '"' :: rest =>
      set rest
      lineString '"' (rest.length + 1)
  | '\'' :: rest =>
      set rest
      lineString '\'' (rest.length + 1)
  | _ =>
      let written ← takeWhile isKeyChar
      if written.isEmpty then failure else return written

/-- The number of parts that a key may have. -/
def maxParts : Nat := 80

/-- Take a key of at most the given number of parts with dots between. -/
def key : Nat → Scan (List Text)
  | 0 => failure
  | bound + 1 => do
      let first ← simpleKey
      spaces
      if ← accept ['.'] then
        spaces
        return first :: (← key bound)
      else return [first]

/-- Take a key. -/
def wholeKey : Scan (List Text) :=
  key maxParts

/-! ## Values -/

/-- A character of a word. -/
def isWordChar (c : Char) : Bool :=
  c.isAlphanum || c == '+' || c == '-' || c == '_' || c == '.' || c == ':'

/-- Take a word; a space between a date and a time belongs to it. -/
def word : Scan Text := do
  let first ← takeWhile isWordChar
  match ← get with
  | ' ' :: c :: rest =>
      if Moment.isDay first && c.isDigit then
        set (c :: rest)
        return first ++ ' ' :: (← takeWhile isWordChar)
      else return first
  | _ => return first

/-- Take the items of a list up to its closing bracket; a comma may stand behind the last one. -/
def listItems (value : Scan Value) : Nat → Scan (List Value)
  | 0 => failure
  | bound + 1 => do
      allTrivia
      if ← accept [']'] then return []
      else
        let item ← value
        allTrivia
        if ← accept [','] then return item :: (← listItems value bound)
        else
          expect [']']
          return [item]

/-- Take a key with its value and what may stand around the equals sign. -/
def pair (gap : Scan Unit) (value : Scan Value) : Scan (List Text × Value) := do
  let path ← wholeKey
  gap
  expect ['=']
  gap
  return (path, ← value)

/-- Take the entries of an inline table up to its closing brace, behind the given ones. -/
def inlineEntries (value : Scan Value) : Nat → Entries → Scan Entries
  | 0, _ => failure
  | bound + 1, entries => do
      allTrivia
      if ← accept ['}'] then return entries
      else
        let (path, item) ← pair allTrivia value
        let known ← (entries.assign path item .inline : Option Entries)
        allTrivia
        if ← accept [','] then inlineEntries value bound known
        else
          expect ['}']
          return known

/-- Take a string or a word. -/
def scalar : Scan Value := do
  match ← get with
  | '"' :: _ => return .string (← string '"')
  | '\'' :: _ => return .string (← string '\'')
  | _ => Value.ofWord? (← word)

/-- How deep lists and inline tables may nest. -/
def maxDepth : Nat := 80

/-- Take a value in which lists and inline tables nest to at most the given depth. -/
def value : Nat → Scan Value
  | 0 => scalar
  | depth + 1 => do
      match ← get with
      | '[' :: rest =>
          set rest
          return .array false (← listItems (value depth) (rest.length + 1))
      | '{' :: rest =>
          set rest
          return .table .inline (← inlineEntries (value depth) (rest.length + 1) [])
      | _ => scalar

/-! ## Documents -/

/-- Take the header of a table up to its closing brackets. -/
def header (closing : Text) : Scan (List Text) := do
  spaces
  let path ← wholeKey
  expect closing
  return path

/-- Take one expression.  The path is that of the table in which it stands. -/
def expression (table : List Text) (entries : Entries) : Scan (List Text × Entries) := do
  match ← get with
  | '[' :: '[' :: rest =>
      set rest
      let path ← header [']', ']']
      return (path, ← entries.openItem path)
  | '[' :: rest =>
      set rest
      let path ← header [']']
      return (path, ← entries.openTable path)
  | _ =>
      let (path, item) ← pair spaces (value maxDepth)
      return (table, ← entries.assignIn table path item)

/-- Take the lines of a document. -/
def lines : Nat → List Text → Entries → Scan Entries
  | 0, _, _ => failure
  | bound + 1, table, entries => do
      spaces
      let isBare := match ← get with
        | [] => true
        | c :: _ => c == '#' || c == '\n' || c == '\r'
      let (table, entries) ← if isBare then pure (table, entries) else expression table entries
      spaces
      comment
      if ← acceptBreak then lines bound table entries
      else if (← get).isEmpty then return entries
      else failure

end Scan

/-- The entries of a document, which a byte order mark may precede. -/
def ofText? (text : Text) : Option Entries :=
  let body := match text with
    | '\uFEFF' :: rest => rest
    | _ => text
  (Scan.lines (body.length + 1) [] [] body).map Prod.fst

end Toml

end DocComment
