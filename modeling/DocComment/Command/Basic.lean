import DocComment.Command.Listing
import DocComment.Comment.Query
import DocComment.Comment.Edit
import DocComment.Dialect.Reader
import DocComment.Difference
import DocComment.Rendering.Document
import DocComment.Settings

/-!
# Commands

The commands of the program: check that a comment is written as it was read,
list its tags, remove tags, and change the type of a tag.  A run is a function
of the files and the standard input; it gives the exit status and what is
written to the two outputs.
-/

namespace DocComment

namespace Command

/-- What a command does. -/
inductive Action where
  | check (showDifference : Bool)
  | list (json : Bool)
  | remove (tag : Text) (showDifference : Bool)
  | setType (tag type : Text) (named : Option Text) (showDifference : Bool)
deriving DecidableEq, Repr

/-- A command line. -/
structure Invocation where
  action : Option Action
  /-- The file of the comment, which otherwise comes from the standard input. -/
  file : Option Text
  /-- The directory of the settings, which otherwise is the present one. -/
  directory : Option Text
deriving DecidableEq, Repr

/-- What a run leaves behind. -/
structure Outcome where
  status : Nat
  output : Text
  errors : Text
deriving DecidableEq, Repr

/-- Why a command stops. -/
inductive Stop where
  /-- The library failed. -/
  | failed (failure : Failure)
  /-- The command cannot do what it is asked for. -/
  | refused (reason : Text)
deriving DecidableEq, Repr

/-- A failure stops the command. -/
def orStop {α : Type} : Except Failure α → Except Stop α
  | .ok value => .ok value
  | .error failure => .error (.failed failure)

/-! ## Reports -/

/-- The report of a failure: its code, its message and the advice that goes with it. -/
def report (failure : Failure) : Text :=
  failure.code ++ ['\n'] ++
    (failure.message?.map fun message => "\n  x ".toList ++ message ++ ['\n']).getD [] ++
    (failure.help?.map fun help => "  help: ".toList ++ help ++ ['\n']).getD []

/-- What a command that stops leaves behind. -/
def Stop.outcome : Stop → Outcome
  | .failed failure => ⟨2, [], report failure⟩
  | .refused reason => ⟨2, [], "error: ".toList ++ reason ++ ['\n']⟩

/-! ## Input -/

/-- The comment to work on, without the line breaks at its end. -/
def readSource (files : Files) (input : Found) (file : Option Text) : Except Stop Text :=
  match ((file.map files).getD input).content with
  | .ok content => .ok (Text.dropEndWhile (fun c => c == '\r' || c == '\n') content)
  | .error reason => .error (.refused reason)

/-- The dialect that the settings of a directory describe. -/
def loadDialect (files : Files) (directory : Option Text) : Except Failure Dialect := do
  match ← Settings.load files (directory.getD []) with
  | some settings => return settings.dialect
  | none => return Dialect.plain

/-- The document to work on, with the text that it is read from. -/
def readDocument (files : Files) (input : Found) (invocation : Invocation) :
    Except Stop (Text × Document) := do
  let dialect ← orStop (loadDialect files invocation.directory)
  let source ← readSource files input invocation.file
  let document ← orStop (dialect.read source)
  return (source, document)

/-! ## Actions -/

/-- A tag name with its marker, which may be left out on the command line. -/
def tagName (written : Text) : Text :=
  if Text.startsWith ['@'] written then written else '@' :: written

/-- The edited comment, or how it differs from the source. -/
def edited (source : Text) (document : Document) (showDifference : Bool) : Except Stop Text := do
  let printed ← orStop document.render
  return if showDifference then Difference.render source printed else printed ++ ['\n']

/-- Check that a document is written as it was read. -/
def check (source : Text) (document : Document) (showDifference : Bool) : Except Stop Outcome := do
  let printed ← orStop document.render
  if printed = source then
    return ⟨0, "✓ docblock is printed back unchanged.\n".toList, []⟩
  else
    return ⟨1, if showDifference then Difference.render source printed else [],
      "✗ docblock is not printed back unchanged.\n".toList⟩

/-- Remove the tags of a name. -/
def remove (source : Text) (document : Document) (tag : Text) (showDifference : Bool) :
    Except Stop Outcome := do
  let left := document.comment.removeTags tag
  let output ← edited source (document.withComment left) showDifference
  let warning :=
    if left.entries.length = document.comment.entries.length then
      "warning: no ".toList ++ Text.ticked tag ++ " tag found\n".toList
    else []
  return ⟨0, output, warning⟩

/-- Whether a tag is the one whose type is to be changed. -/
def isTarget (name : Text) (named : Option Text) (tag : Tag) : Bool :=
  tag.name == name &&
    match named with
    | none => true
    | some named => (tag.payload.variableName?.map (sameVariable named)).getD false

/-- The place of the first entry that is a tag of a class. -/
def placeOf? (p : Tag → Bool) (entries : List Entry) : Option Nat :=
  entries.findIdx? fun entry => (entry.tag?.map p).getD false

/-- Change the type of the first tag of a name, or of the one that names a variable. -/
def setType (source : Text) (document : Document) (name type : Text) (named : Option Text)
    (showDifference : Bool) : Except Stop Outcome := do
  let type ← orStop (TypeExpr.ofText type)
  match placeOf? (isTarget name named) document.comment.entries with
  | none =>
      let target := match named with
        | none => Text.ticked name ++ " tag".toList
        | some named =>
            Text.ticked name ++ " tag for ".toList ++ Text.ticked ('$' :: dropDollars named)
      throw (.refused ("no ".toList ++ target ++ " found".toList))
  | some place =>
      match document.comment.changeTag? place (Tag.changePayload? (Payload.withType? type)) with
      | none => throw (.refused (Text.ticked name ++ " does not carry a type".toList))
      | some comment =>
          return ⟨0, ← edited source (document.withComment comment) showDifference, []⟩

/-- Do what an action says to a document. -/
def perform (source : Text) (document : Document) : Action → Except Stop Outcome
  | .check showDifference => check source document showDifference
  | .list json =>
      let tags := document.comment.tags
      .ok ⟨0, if json then Listing.asJson tags else Listing.asText tags, []⟩
  | .remove tag showDifference => remove source document (tagName tag) showDifference
  | .setType tag type named showDifference =>
      setType source document (tagName tag) type named showDifference

/-- Run a command. -/
def run (files : Files) (input : Found) (invocation : Invocation) : Outcome :=
  match invocation.action with
  | none =>
      ⟨1, [], "No subcommand specified. Run ".toList ++ Text.ticked "docblock --help".toList ++
        " for usage.\n".toList⟩
  | some action =>
      let outcome := do
        let (source, document) ← readDocument files input invocation
        perform source document action
      match outcome with
      | .ok outcome => outcome
      | .error stop => stop.outcome

/-- The paths that a command may look at. -/
def paths (invocation : Invocation) : List Text :=
  invocation.file.toList ++
    Settings.candidates.map (Files.child (invocation.directory.getD []))

end Command

end DocComment
