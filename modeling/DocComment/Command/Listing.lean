import DocComment.Comment.Basic

/-!
# Listings

The list of the tags of a comment, as lines of text or as JSON.
-/

namespace DocComment

namespace Listing

/-! ## Text -/

/-- The line of a tag: its name and its payload with a space between. -/
def line (tag : Tag) : Text :=
  match tag.payload.render with
  | [] => tag.name ++ ['\n']
  | payload => tag.name ++ ' ' :: payload ++ ['\n']

/-- The tags of a comment, one to a line. -/
def asText (tags : List Tag) : Text :=
  if tags.isEmpty then "No tags found.\n".toList else tags.flatMap line

/-! ## JSON -/

/-- The hexadecimal digit of a number below sixteen. -/
def hexDigit (number : Nat) : Char :=
  Nat.digitChar number

/-- The written form of a character in a JSON string. -/
def jsonChar (c : Char) : Text :=
  match c with
  | '"' => ['\\', '"']
  | '\\' => ['\\', '\\']
  | '\n' => ['\\', 'n']
  | '\r' => ['\\', 'r']
  | '\t' => ['\\', 't']
  | '\x08' => ['\\', 'b']
  | '\x0c' => ['\\', 'f']
  | _ =>
      if c.toNat < 0x20 then
        ['\\', 'u', '0', '0', hexDigit (c.toNat / 16), hexDigit (c.toNat % 16)]
      else [c]

/-- The written form of a JSON string. -/
def jsonString (text : Text) : Text :=
  '"' :: text.flatMap jsonChar ++ ['"']

/-- The fields of a tag; the type and the span are left out where there is none. -/
def fields (tag : Tag) : List (Text × Text) :=
  [("name".toList, tag.name), ("kind".toList, tag.payload.kind.word)] ++
    (tag.payload.type?.map fun type => ("type".toList, type.render)).toList ++
    [("value".toList, tag.payload.render)] ++
    (tag.span.map fun span => ("range".toList, span.render)).toList

/-- The written form of a field. -/
def jsonField (field : Text × Text) : Text :=
  "    ".toList ++ jsonString field.1 ++ [':', ' '] ++ jsonString field.2

/-- The written form of a tag. -/
def jsonObject (tag : Tag) : Text :=
  "  \x7b\n".toList ++ Text.join [',', '\n'] ((fields tag).map jsonField) ++ "\n  \x7d".toList

/-- The tags of a comment as a JSON list. -/
def asJson (tags : List Tag) : Text :=
  if tags.isEmpty then "[]\n".toList
  else "[\n".toList ++ Text.join [',', '\n'] (tags.map jsonObject) ++ "\n]\n".toList

end Listing

end DocComment
