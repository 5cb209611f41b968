import DocComment.Payload.Basic
import DocComment.Span

/-!
# Comments

A comment is a list of entries, each a line of prose or a tag.  The order of
the entries is the order in which they are written.  An entry that was read
from a source remembers the span of tokens that it was read from.
-/

namespace DocComment

/-- A line of free text. -/
structure Prose where
  text : Text
  span : Option Span
deriving DecidableEq, Repr

/-- A tag with its payload. -/
structure Tag where
  /-- The name with its marker. -/
  name : Text
  payload : Payload
  span : Option Span
  /-- The description as it was written, where that differs from the one in the payload. -/
  wording : Option Text
deriving DecidableEq, Repr

/-- An entry of a comment. -/
inductive Entry where
  | prose (prose : Prose)
  | tag (tag : Tag)
deriving DecidableEq, Repr

/-- A comment. -/
structure Comment where
  entries : List Entry
  /-- Whether the comment is to be written on one line. -/
  onOneLine : Bool
deriving DecidableEq, Repr

namespace Tag

/-- A tag that comes from no source. -/
def fresh (name : Text) (payload : Payload) : Tag :=
  ⟨name, payload, none, none⟩

/-- The written form of a tag; a payload in parentheses is glued to the name. -/
def render (tag : Tag) : Text :=
  match tag.payload.render with
  | [] => tag.name
  | '(' :: rest => tag.name ++ '(' :: rest
  | payload => tag.name ++ ' ' :: payload

/-- Whether the description is to be written as it was. -/
def keepsWording (tag : Tag) : Bool :=
  tag.wording.isSome &&
    match tag.payload.description? with
    | none => false
    | some description => !description.isEmpty

end Tag

namespace Entry

/-- Prose that comes from no source. -/
def freshProse (text : Text) : Entry :=
  .prose ⟨text, none⟩

/-- A tag that comes from no source, as an entry. -/
def freshTag (name : Text) (payload : Payload) : Entry :=
  .tag (Tag.fresh name payload)

/-- Where the entry stood in its source. -/
def span? : Entry → Option Span
  | .prose p => p.span
  | .tag t => t.span

/-- The entry as a tag. -/
def tag? : Entry → Option Tag
  | .tag t => some t
  | .prose _ => none

/-- The written form of an entry. -/
def render : Entry → Text
  | .prose p => p.text
  | .tag t => t.render

/-- How a message names an entry. -/
def label : Entry → Text
  | .prose p => "text ".toList ++ Text.ticked p.text
  | .tag t => "tag ".toList ++ Text.ticked t.name

/-- Whether the entry has no content: blank prose, or a tag whose payload was taken away. -/
def isVoid : Entry → Bool
  | .prose p => Text.isAllBlank p.text
  | .tag t => t.payload.kind == .cleared

end Entry

namespace Comment

/-- The comment with the given entries. -/
def ofEntries (entries : List Entry) : Comment :=
  ⟨entries, false⟩

/-- The comment without entries. -/
def empty : Comment :=
  ofEntries []

/-- Whether no entry has content. -/
def isVoid (comment : Comment) : Bool :=
  comment.entries.all Entry.isVoid

/-- The tags of a comment. -/
def tags (comment : Comment) : List Tag :=
  comment.entries.filterMap Entry.tag?

end Comment

end DocComment
