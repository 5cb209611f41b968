import DocComment.Text.Blank
import DocComment.Text.Search

/-!
# Cleaning up

What is done to the whole text of a comment after its entries were put
together: blanks that no longer separate anything are dropped, missing markers
are added, and the comment is put on one line if that is asked for.
-/

namespace DocComment

namespace Cleanup

/-- The opening marker. -/
def opener : Text := ['/', '*', '*']

/-- The closing marker. -/
def closer : Text := ['*', '/']

/-- Whether a line ends in front of a text. -/
def isLineEnd : Text → Bool
  | [] => true
  | c :: _ => c == '\n'

/-! ## White space -/

/-- The rule that drops the padding behind a single star at the end of a line. -/
def starPadding : Text → Option (Nat × Text)
  | c :: '*' :: rest =>
      let padding := rest.takeWhile isPadding
      if c != '*' && !padding.isEmpty && isLineEnd (rest.dropWhile isPadding) then
        some (padding.length + 2, [c, '*'])
      else none
  | _ => none

/-- The word that opens the signature of a callable. -/
def callableWord : Text :=
  ['c', 'a', 'l', 'l', 'a', 'b', 'l', 'e']

/-- The rule that drops the padding between that word and its parenthesis. -/
def callablePadding (text : Text) : Option (Nat × Text) :=
  (Text.after? callableWord text).bind fun rest =>
    let padding := rest.takeWhile isPadding
    match rest.dropWhile isPadding with
    | '(' :: _ =>
        if padding.isEmpty then none
        else some (callableWord.length + padding.length + 1, callableWord ++ ['('])
    | _ => none

/-- The last line of a text. -/
def lastLine (text : Text) : Text :=
  (text.reverse.takeWhile (· != '\n')).reverse

/-- Put the last closing marker of a text with several lines on a line of its own. -/
def closeOnOwnLine (text : Text) : Text :=
  if text.contains '\n' then
    match Text.splitLast? closer text with
    | some (before, behind) =>
        if Text.isAllBlank (lastLine before) then text
        else Text.trimEnd before ++ ['\n', ' '] ++ closer ++ behind
    | none => text
  else text

/-- Drop the blanks that separate nothing. -/
def normalise (text : Text) : Text :=
  closeOnOwnLine (Text.substituteAll callablePadding (Text.substituteAll starPadding text))

/-! ## Markers -/

/-- Whether a text begins as a comment of some form. -/
def hasOpening (text : Text) : Bool :=
  let trimmed := Text.trimStart text
  Text.startsWith ['/', '/'] trimmed || Text.startsWith ['/', '*'] trimmed ||
    Text.startsWith ['#'] trimmed

/-- Put an opening marker in front of a text that begins as no comment. -/
def completeOpening (text : Text) : Text :=
  if hasOpening text then text
  else
    match text with
    | [] => opener ++ [' ']
    | c :: rest => if isBlank c then opener ++ c :: rest else opener ++ ' ' :: c :: rest

/-- Put a closing marker behind a text that has none. -/
def completeClosing (text : Text) : Text :=
  if Text.startsWith ['/', '*'] (Text.trimStart text) && !Text.occurs closer text then
    if text.contains '\n' then text ++ ['\n', ' '] ++ closer else text ++ ' ' :: closer
  else text

/-- Add the markers that are missing. -/
def completeMarkers (text : Text) : Text :=
  completeClosing (completeOpening text)

/-! ## One line -/

/-- A line without its decoration. -/
def bareLine (line : Text) : Text :=
  match Text.trim line with
  | '*' :: '/' :: rest => '*' :: '/' :: rest
  | '*' :: rest => Text.trim rest
  | trimmed => trimmed

/-- The text on one line. -/
def onOneLine (text : Text) : Text :=
  Text.joinParts ((Text.lines text).map bareLine)

/-! ## All together -/

/-- Clean up the text of a comment; white space is left alone unless it was edited. -/
def finish (edited oneLine : Bool) (text : Text) : Text :=
  if text.isEmpty then text
  else
    let normal := if edited then normalise text else text
    let complete := completeMarkers normal
    if oneLine then onOneLine complete else complete

end Cleanup

end DocComment
