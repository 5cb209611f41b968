import DocComment.Text.Basic

/-!
# Files

What the program sees of the files around it: for each path, what is found
there.  A path is walked part by part, and every part but the last must lead to
a directory.
-/

namespace DocComment

/-- What is found at a path. -/
inductive Found where
  | nothing
  | directory
  /-- A file whose bytes are no text. -/
  | binary
  | text (content : Text)
  /-- The path goes on behind something that is no directory. -/
  | blocked
  /-- Something that cannot be looked at. -/
  | refused (reason : Text)
deriving DecidableEq, Repr, Inhabited

/-- The files of a program. -/
abbrev Files := Text → Found

namespace Found

/-- Whether a file is found. -/
def isFile : Found → Bool
  | .nothing | .directory | .blocked => false
  | .binary | .text _ | .refused _ => true

/-- The content of what is found, or why it cannot be read. -/
def content : Found → Except Text Text
  | .text content => .ok content
  | .nothing => .error "No such file or directory (os error 2)".toList
  | .directory => .error "Is a directory (os error 21)".toList
  | .blocked => .error "Not a directory (os error 20)".toList
  | .binary => .error "stream did not contain valid UTF-8".toList
  | .refused reason => .error reason

end Found

/--
A place among the files: the names that lead to it from the working directory.
Two dots in front lead out of that directory, and an empty name in front stands
for the root of all files.
-/
abbrev Place := List Text

namespace Place

/-- The name that leads one place up. -/
def upward : Text :=
  ['.', '.']

/-- The place above a place. -/
def above (place : Place) : Place :=
  match place.getLast? with
  | none => [upward]
  | some [] => place
  | some name => if name = upward then place ++ [upward] else place.dropLast

/-- Follow a part of a path: one dot or nothing stays, two dots go up, and a name goes on. -/
def enter (place : Place) (part : Text) : Place :=
  if part = [] ∨ part = ['.'] then place
  else if part = upward then place.above
  else place ++ [part]

/-- Whether a place is a directory whatever the files are. -/
def isGiven (place : Place) : Bool :=
  place.all (· == upward) || place == [[]]

/-- The places on the way along the parts of a path, the last one left out. -/
def onTheWay : Place → List Text → List Place
  | _, [] => []
  | place, part :: parts => place :: onTheWay (place.enter part) parts

end Place

namespace Files

/-- The path of a file in a directory. -/
def child (directory name : Text) : Text :=
  if directory.isEmpty then name
  else if directory.getLast? = some '/' then directory ++ name
  else directory ++ '/' :: name

/-- Where a path starts, and its parts. -/
def split (path : Text) : Place × List Text :=
  match path.splitOn '/' with
  | [] :: part :: parts => ([[]], part :: parts)
  | parts => ([], parts)

/-- The place of a path. -/
def placeOf (path : Text) : Place :=
  let (start, parts) := split path
  parts.foldl Place.enter start

/-- The directories on the way to a path. -/
def directoriesTo (path : Text) : List Place :=
  let (start, parts) := split path
  Place.onTheWay start parts

/-- What is found at the end of a path, given what is found at each place. -/
def walk (found : Place → Found) : Place → List Text → Found
  | place, [] => found place
  | place, part :: parts =>
      match found place with
      | .directory => walk found (place.enter part) parts
      | .nothing => .nothing
      | _ => .blocked

/-- What a list of files with their paths has at a place. -/
def listed (files : List (Text × Found)) (place : Place) : Found :=
  match files.find? fun file => placeOf file.1 == place with
  | some file => file.2
  | none =>
      if place.isGiven || files.any fun file => (directoriesTo file.1).contains place then
        .directory
      else .nothing

/-- The files of a list, each with its path, and the directories that they stand in. -/
def ofList (files : List (Text × Found)) : Files := fun path =>
  if path.isEmpty then .nothing
  else
    let (start, parts) := split path
    walk (listed files) start parts

end Files

end DocComment
