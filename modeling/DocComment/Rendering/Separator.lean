import DocComment.Comment.Basic
import DocComment.Text.Search
import DocComment.Token.Scan

/-!
# Separators

The padding between the name of a changed tag and its new payload is looked up
in the source: it is the padding behind the first occurrence of the name that
fits the payload.  Which occurrences fit depends on whether the payload is
typed and on the variable that it names.
-/

namespace DocComment

namespace Separator

/-- A character that would continue a name. -/
def continuesName (c : Char) : Bool :=
  Token.isNameChar c || c == '\\'

/--
The padding in front of a text, for a payload without a grammar.  In front of
a name the last character of the padding ends the tag instead.
-/
def untyped? (text : Text) : Option Text :=
  let padding := text.takeWhile isPadding
  match text.dropWhile isPadding with
  | [] => some padding
  | c :: _ =>
      if !continuesName c then some padding
      else if padding.isEmpty then none
      else some padding.dropLast

/-- Whether `needle` occurs in a text in front of its first line feed or from there on. -/
def occursOnLine (needle : Text) : Text → Bool
  | [] => needle.isEmpty
  | c :: rest =>
      Text.startsWith needle (c :: rest) || (c != '\n' && occursOnLine needle rest)

/-- The longest non-empty part of the padding in front of a line that has the name in it. -/
def longest? (named padding rest : Text) : Nat → Option Text
  | 0 => none
  | length + 1 =>
      if occursOnLine named (padding.drop (length + 1) ++ rest) then
        some (padding.take (length + 1))
      else longest? named padding rest length

/-- The padding in front of a text, for a typed payload. -/
def typed? (named : Option Text) (text : Text) : Option Text :=
  let padding := text.takeWhile isPadding
  match named with
  | none => if padding.isEmpty then none else some padding
  | some named => longest? named padding (text.dropWhile isPadding) padding.length

/-- The separator that fits behind the name of a tag, where the name occurs. -/
def behindName? (tag : Tag) (text : Text) : Option Text :=
  (Text.after? tag.name text).bind fun rest =>
    if tag.payload.kind.isTyped then typed? tag.payload.variableName? rest else untyped? rest

/--
The separator between the name and the payload of a tag.  Where the source has
none that fits, a typed payload stands behind a space and any other is glued
to the name.
-/
def ofTag (source : Text) (tag : Tag) : Text :=
  (Text.firstSuffix? (behindName? tag) source).getD
    (if tag.payload.kind.isTyped then [' '] else [])

end Separator

end DocComment
