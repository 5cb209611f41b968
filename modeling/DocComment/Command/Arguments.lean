import DocComment.Command.Basic

/-!
# Command lines

The words of a command line.  Options may stand anywhere in front of a double
dash and take their value from the same word, behind an equals sign, or from
the next one.
-/

namespace DocComment

namespace Command

/-- What the words of a command line say, in the order in which they say it. -/
structure Arguments where
  /-- The words that are no options. -/
  words : List Text
  /-- The options with a value. -/
  options : List (Text × Text)
  /-- The options without a value. -/
  flags : List Text
deriving DecidableEq, Repr

namespace Arguments

/-- The options that take a value, by their written forms. -/
def valueOptions : List (Text × Text) :=
  [("--file".toList, "file".toList), ("-f".toList, "file".toList),
    ("--path".toList, "path".toList), ("-p".toList, "path".toList),
    ("--format".toList, "format".toList), ("--type".toList, "type".toList),
    ("--var".toList, "var".toList)]

/-- The options that take no value, by their written forms. -/
def flagOptions : List (Text × Text) :=
  [("--diff".toList, "diff".toList), ("--verbose".toList, "verbose".toList),
    ("-v".toList, "verbose".toList), ("--no-color".toList, "no-color".toList)]

/-- The command line without words. -/
def empty : Arguments := ⟨[], [], []⟩

/-- The arguments with a word in front. -/
def withWord (word : Text) (arguments : Arguments) : Arguments :=
  { arguments with words := word :: arguments.words }

/-- The arguments with an option in front. -/
def withOption (name value : Text) (arguments : Arguments) : Arguments :=
  { arguments with options := (name, value) :: arguments.options }

/-- The arguments with a flag in front. -/
def withFlag (name : Text) (arguments : Arguments) : Arguments :=
  { arguments with flags := name :: arguments.flags }

/-- What a word of a command line is. -/
inductive Role where
  /-- All words behind it are no options. -/
  | separator
  | flag (name : Text)
  /-- An option whose value is the next word. -/
  | option (name : Text)
  /-- An option together with its value. -/
  | valued (name value : Text)
  | plain
  | unknown
deriving DecidableEq, Repr

/-- What a word that is neither an option nor a flag is by itself. -/
def roleWithValue (word : Text) : Role :=
  match Text.splitFirst? ['='] word with
  | some (opening, value) =>
      match List.lookup opening valueOptions with
      | some name => .valued name value
      | none => if Text.startsWith ['-'] word then .unknown else .plain
  | none => if Text.startsWith ['-'] word then .unknown else .plain

/-- What a word is. -/
def roleOf (word : Text) : Role :=
  if word = ['-', '-'] then .separator
  else
    match List.lookup word flagOptions, List.lookup word valueOptions with
    | some name, _ => .flag name
    | none, some name => .option name
    | none, none => roleWithValue word

/-- Sort the words of a command line.  A pending option takes the first word as its value. -/
def sort : Option Text → List Text → Option Arguments
  | some _, [] => none
  | none, [] => some empty
  | some pending, word :: rest => (sort none rest).map (withOption pending word)
  | none, word :: rest =>
      match roleOf word with
      | .separator => some ⟨rest, [], []⟩
      | .flag name => (sort none rest).map (withFlag name)
      | .option name => sort (some name) rest
      | .valued name value => (sort none rest).map (withOption name value)
      | .plain => (sort none rest).map (withWord word)
      | .unknown => none

/-- The value of an option. -/
def option? (arguments : Arguments) (name : Text) : Option Text :=
  List.lookup name arguments.options

/-- Whether a flag is set. -/
def hasFlag (arguments : Arguments) (name : Text) : Bool :=
  arguments.flags.contains name

/-- The action that arguments ask for. -/
def action? (arguments : Arguments) : Option (Option Action) :=
  let showDifference := arguments.hasFlag "diff".toList
  let format := (arguments.option? "format".toList).getD "text".toList
  match arguments.words with
  | [] => some none
  | [command] =>
      if command = "check".toList then some (some (.check showDifference))
      else if command = "tags".toList && format = "json".toList then some (some (.list true))
      else if command = "tags".toList && format = "text".toList then some (some (.list false))
      else none
  | [command, tag] =>
      if command = "remove".toList then some (some (.remove tag showDifference))
      else if command = "set-type".toList then
        (arguments.option? "type".toList).map fun type =>
          some (.setType tag type (arguments.option? "var".toList) showDifference)
      else none
  | _ => none

end Arguments

/-- The invocation that the words of a command line describe. -/
def Invocation.ofWords? (words : List Text) : Option Invocation := do
  let arguments ← Arguments.sort none words
  let action ← arguments.action?
  return ⟨action, arguments.option? "file".toList, arguments.option? "path".toList⟩

/-- How the program is used. -/
def usage : Text :=
  "Usage: docblock [--file FILE] [--path DIR] <COMMAND>\n\n".toList ++
    "Commands:\n".toList ++
    "  check [--diff]                                   ".toList ++
    "Check that the comment is printed back as it was read\n".toList ++
    "  tags [--format text|json]                        ".toList ++
    "List the tags with their values\n".toList ++
    "  remove TAG [--diff]                              ".toList ++
    "Remove every tag with the given name\n".toList ++
    "  set-type TAG --type TYPE [--var VAR] [--diff]    ".toList ++
    "Replace the type of a tag\n".toList

end Command

end DocComment
