import DocComment.Comment.Basic

/-!
# Editing comments

Edits of the list of entries and of single entries.  An edit at a place where
no entry stands gives no comment.
-/

namespace DocComment

namespace Payload

/-- The payload with another name for its variable, if it can have one. -/
def withVariable? (name : Text) : Payload → Option Payload
  | .typed (.param type byReference variadic _) description =>
      some (.typed (.param type byReference variadic name) description)
  | .typed (.var type _) description => some (.typed (.var type (some name)) description)
  | _ => none

/-- The payload of a parameter, passed by reference or not. -/
def withReference? (byReference : Bool) : Payload → Option Payload
  | .typed (.param type _ variadic name) description =>
      some (.typed (.param type byReference variadic name) description)
  | _ => none

/-- The payload of a parameter, variadic or not. -/
def withVariadic? (variadic : Bool) : Payload → Option Payload
  | .typed (.param type byReference _ name) description =>
      some (.typed (.param type byReference variadic name) description)
  | _ => none

/-- The payload without its type, if it can be without one. -/
def withoutType? : Payload → Option Payload
  | .typed (.param _ byReference variadic name) description =>
      some (.typed (.param none byReference variadic name) description)
  | .typed (.var _ name) description => some (.typed (.var none name) description)
  | _ => none

/-- The payload with another text, if it is plain. -/
def withText? (text : Text) : Payload → Option Payload
  | .plain _ => some (.plain text)
  | _ => none

/-- The annotation with a value stored under a key. -/
def withArgument? (key : Text) (value : ArgumentValue) : Payload → Option Payload
  | .call c => some (.call (c.set key value))
  | _ => none

end Payload

namespace Tag

/-- The tag at its place in the source with another payload. -/
def withPayload (payload : Payload) (tag : Tag) : Tag :=
  { tag with payload }

/-- The tag with another payload, as one that comes from no source. -/
def detached (payload : Payload) (tag : Tag) : Tag :=
  fresh tag.name payload

/-- The tag with a changed payload, if the change applies. -/
def changePayload? (change : Payload → Option Payload) (tag : Tag) : Option Tag :=
  (change tag.payload).map tag.withPayload

end Tag

namespace Comment

/-- The comment with other entries. -/
def withEntries (comment : Comment) (entries : List Entry) : Comment :=
  { comment with entries }

/-- The entry at a place. -/
def entry? (comment : Comment) (place : Nat) : Option Entry :=
  comment.entries[place]?

/-- Add an entry at the end. -/
def push (comment : Comment) (entry : Entry) : Comment :=
  comment.withEntries (comment.entries ++ [entry])

/-- Insert an entry at a place, or at the end when the place lies behind it. -/
def insert (comment : Comment) (place : Nat) (entry : Entry) : Comment :=
  comment.withEntries (comment.entries.take place ++ entry :: comment.entries.drop place)

/-- Remove the entry at a place. -/
def remove (comment : Comment) (place : Nat) : Comment :=
  comment.withEntries (comment.entries.eraseIdx place)

/-- Put an entry in the place of another one. -/
def replace (comment : Comment) (place : Nat) (entry : Entry) : Comment :=
  comment.withEntries (comment.entries.set place entry)

/-- Keep the entries of a class. -/
def keep (p : Entry → Bool) (comment : Comment) : Comment :=
  comment.withEntries (comment.entries.filter p)

/-- Whether an entry is a tag with the given name. -/
def isTagNamed (name : Text) (entry : Entry) : Bool :=
  match entry with
  | .tag tag => tag.name == name
  | .prose _ => false

/-- Remove every tag with the given name. -/
def removeTags (name : Text) (comment : Comment) : Comment :=
  comment.keep fun entry => !isTagNamed name entry

/-- Exchange the entries at two places. -/
def swap? (comment : Comment) (first second : Nat) : Option Comment := do
  let one ← comment.entry? first
  let other ← comment.entry? second
  return (comment.replace first other).replace second one

/-- Move an entry to a place among the others. -/
def move? (comment : Comment) (source target : Nat) : Option Comment := do
  let entry ← comment.entry? source
  return (comment.remove source).insert target entry

/-- Insert a copy of an entry, which keeps its span, at a place. -/
def copy? (comment : Comment) (source target : Nat) : Option Comment := do
  let entry ← comment.entry? source
  return comment.insert target entry

/-- Change the tag at a place, if a tag stands there and the change applies. -/
def changeTag? (comment : Comment) (place : Nat) (change : Tag → Option Tag) : Option Comment := do
  let tag ← (← comment.entry? place).tag?
  return comment.replace place (.tag (← change tag))

/-- Give the prose at a place another text. -/
def setProse? (comment : Comment) (place : Nat) (text : Text) : Option Comment :=
  match comment.entry? place with
  | some (.prose prose) => some (comment.replace place (.prose { prose with text }))
  | _ => none

/-- Change every tag. -/
def mapTags (change : Tag → Tag) (comment : Comment) : Comment :=
  comment.withEntries (comment.entries.map fun entry =>
    match entry with
    | .tag tag => .tag (change tag)
    | .prose prose => .prose prose)

end Comment

end DocComment
