import DocComment.Dialect.Basic
import DocComment.Files
import DocComment.Toml.Reader

/-!
# Settings

The settings file of a project.  It names aliases and the keys of positional
arguments, describes the scope of comments and lists the tags that are kept as
they are.  Keys that mean nothing are passed over, but their values must be
ones that can be held.
-/

namespace DocComment

/-- The settings of a project. -/
structure Settings where
  /-- The classes of tags, by the name of the tag without its marker. -/
  aliases : Table
  silentKeys : SilentKeys
  scope : Scope
  /-- Whether capitalised tags are looked up in the namespace of the scope. -/
  inNamespace : Bool
  /-- The tags whose payload is kept as it is written. -/
  verbatimTags : List Text
deriving DecidableEq, Repr, Inhabited

namespace Settings

/-! ## From values -/

/-- The text that a value is. -/
def textOf? : Toml.Value → Option Text
  | .string text => some text
  | _ => none

/-- The truth value that a value is. -/
def boolOf? : Toml.Value → Option Bool
  | .boolean value => some value
  | _ => none

/-- The list of texts that a value is. -/
def textsOf? : Toml.Value → Option (List Text)
  | .array _ items => items.mapM textOf?
  | _ => none

/-- The key under which a moment stands where a table is asked for. -/
def momentKey : Text :=
  "$__toml_private_datetime".toList

/-- The table of texts that a value is.  A moment is a table with its written form alone. -/
def tableOf? : Toml.Value → Option Table
  | .table _ entries => entries.mapM fun (key, value) => return (key, ← textOf? value)
  | .moment moment => some [(momentKey, moment.render)]
  | _ => none

/-- Read an optional entry; one that is there must have the right form. -/
def optional {α : Type} (read : Toml.Value → Option α) (absent : α) : Option Toml.Value → Option α
  | none => some absent
  | some value => read value

/-- The scope that two optional entries describe. -/
def scopeFrom? (space imports : Option Toml.Value) : Option Scope := do
  let space ← optional (fun value => (textOf? value).map some) none space
  let imports ← optional tableOf? [] imports
  return ⟨space, imports⟩

/--
The scope that a value describes: a table, or a list of the entries in their
order, of which further items are not looked at.  A moment describes none.
-/
def scopeOf? : Toml.Value → Option Scope
  | .table _ entries =>
      if Toml.Value.haveBounds entries then
        scopeFrom? (Toml.Entries.get? entries "namespace".toList)
          (Toml.Entries.get? entries "uses".toList)
      else none
  | .array _ items => scopeFrom? items[0]? items[1]?
  | .moment _ => scopeFrom? none none
  | _ => none

/-- The key of the scope. -/
def scopeKey : Text :=
  "host".toList

/-- Whether the values outside the scope can be held. -/
def isBounded (entries : Toml.Entries) : Bool :=
  Toml.Value.haveBounds (entries.filter fun entry => entry.1 != scopeKey)

/-- The settings that the entries of a document describe. -/
def ofEntries? (entries : Toml.Entries) : Option Settings := do
  guard (isBounded entries)
  let aliases ← optional tableOf? [] (entries.get? "annotations".toList)
  let keys ← optional tableOf? [] (entries.get? "silent_keys".toList)
  let scope ← optional scopeOf? ⟨none, []⟩ (entries.get? scopeKey)
  let inNamespace ← optional boolOf? false (entries.get? "resolve_in_namespace".toList)
  let verbatimTags ← optional textsOf? [] (entries.get? "raw_tags".toList)
  return ⟨aliases, ⟨keys⟩, scope, inNamespace, verbatimTags⟩

/-- The settings that a text describes. -/
def ofText (text : Text) : Except Failure Settings :=
  match (Toml.ofText? text).bind ofEntries? with
  | some settings => .ok settings
  | none => .error .badSettings

/-- The dialect of a project with the given settings. -/
def dialect (settings : Settings) : Dialect where
  rules := [TagRule.verbatim settings.verbatimTags]
  naming := ⟨Resolver.imports settings.aliases settings.inNamespace, settings.scope,
    settings.silentKeys⟩

/-! ## From files -/

/-- The places of the settings file in a directory, in the order of their precedence. -/
def candidates : List Text :=
  ["docblock.toml".toList, ".docblock.toml".toList, ".config/docblock.toml".toList]

/-- The place of the settings file in a directory. -/
def place? (files : Files) (directory : Text) : Option Text :=
  candidates.find? fun candidate => (files (Files.child directory candidate)).isFile

/-- The settings of a directory, if it has a settings file. -/
def load (files : Files) (directory : Text) : Except Failure (Option Settings) :=
  match place? files directory with
  | none => .ok none
  | some candidate =>
      match (files (Files.child directory candidate)).content with
      | .ok text => (ofText text).map some
      | .error reason => .error (.unreadable reason)

end Settings

end DocComment
