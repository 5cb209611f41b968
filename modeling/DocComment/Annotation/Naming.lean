import DocComment.Annotation.Basic
import DocComment.Text.Search
import DocComment.Text.Uppercase

/-!
# Naming

What decides which tags are annotations and how their arguments are keyed: the
scope around a comment, the resolver that gives full names to tags, and the
keys of positional arguments.
-/

namespace DocComment

/-- A table from names to texts.  The first entry of a name counts. -/
abbrev Table := List (Text × Text)

namespace Table

/-- The entry of a name. -/
def get? (table : Table) (name : Text) : Option Text :=
  List.lookup name table

/-- Give a name a new entry. -/
def insert (table : Table) (name text : Text) : Table :=
  (name, text) :: table.filter fun entry => entry.1 != name

end Table

/-- The code around a comment: its namespace and the names that it imports. -/
structure Scope where
  space : Option Text
  imports : Table
deriving DecidableEq, Repr, Inhabited

/-- A resolver gives the full name of a class to the tags that it claims in a scope. -/
abbrev Resolver := Scope → Text → Option Text

/-- A name without the backslashes in front. -/
def dropBackslashes (name : Text) : Text :=
  name.dropWhile (· == '\\')

namespace Resolver

/-- The resolver that claims nothing. -/
def nothing : Resolver := fun _ _ => none

/-- The resolver that gives every tag the same name. -/
def constant (name : Text) : Resolver := fun _ _ => some name

/-- A name, unless it is empty. -/
def unlessEmpty (name : Text) : Option Text :=
  if name.isEmpty then none else some name

/--
The resolver by aliases and imports.  A full name stands for itself.  An alias
is matched as a whole, an import by its first segment.  A name of one segment
that starts with an upper case letter belongs to the namespace, when names are
looked up there.
-/
def imports (aliases : Table) (inNamespace : Bool) : Resolver := fun scope tag =>
  let name := tag.dropWhile (· == '@')
  match name with
  | [] => none
  | '\\' :: qualified => unlessEmpty qualified
  | initial :: _ =>
      match aliases.get? name with
      | some target => unlessEmpty (dropBackslashes target)
      | none =>
          let (first, others) := match Text.splitFirst? ['\\'] name with
            | some (first, others) => (first, some others)
            | none => (name, none)
          match scope.imports.get? first with
          | some imported =>
              some (dropBackslashes imported ++ (others.map ('\\' :: ·)).getD [])
          | none =>
              if inNamespace && others.isNone && isUppercase initial then
                scope.space.map fun space =>
                  Text.dropAround (· == '\\') space ++ '\\' :: name
              else none

end Resolver

/-- The keys of positional arguments by the full name of the annotation. -/
structure SilentKeys where
  entries : Table
deriving DecidableEq, Repr, Inhabited

namespace SilentKeys

/-- No keys. -/
def empty : SilentKeys := ⟨[]⟩

/-- Set the key of an annotation, whose name may have backslashes in front. -/
def insert (keys : SilentKeys) (name key : Text) : SilentKeys :=
  ⟨keys.entries.insert (dropBackslashes name) key⟩

/-- The keys that arise by insertion in the given order. -/
def ofList (pairs : List (Text × Text)) : SilentKeys :=
  pairs.foldl (fun keys pair => keys.insert pair.1 pair.2) empty

/-- The key of an annotation. -/
def get? (keys : SilentKeys) (name : Text) : Option Text :=
  keys.entries.get? (dropBackslashes name)

/-- Whether no annotation has a key. -/
def isEmpty (keys : SilentKeys) : Bool :=
  keys.entries.isEmpty

end SilentKeys

/-- All that decides how tags are named. -/
structure Naming where
  resolver : Resolver
  scope : Scope
  silentKeys : SilentKeys

namespace Naming

/-- The naming under which no tag is an annotation. -/
def plain : Naming :=
  ⟨Resolver.nothing, ⟨none, []⟩, SilentKeys.empty⟩

/-- The full name of a tag, if it is an annotation. -/
def resolve (naming : Naming) (tag : Text) : Option Text :=
  naming.resolver naming.scope tag

/-- The call of a class without arguments. -/
def callOf (naming : Naming) (name : Text) : Annotation :=
  Call.ofName name (naming.silentKeys.get? name)

end Naming

end DocComment
