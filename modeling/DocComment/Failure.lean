import DocComment.Token.Basic

/-!
# Failures

Everything that can go wrong, by its cause.  The code, the wording and the
advice of each failure are functions of it.
-/

namespace DocComment

/-- What can go wrong when a comment is read or written or when settings are loaded. -/
inductive Failure where
  /-- A token of one kind had to stand at a place where another one or none stands. -/
  | unexpected (expected : Token.Kind) (found : Option Text) (place : Nat)
  /-- An entry of the comment as it was read does not say where it stood. -/
  | unplaced (label : Text)
  /-- A tag was claimed by the resolver, which then named no class for it. -/
  | unresolved (tag name : Text)
  /-- The settings are not in the form that settings must have. -/
  | badSettings
  /-- A file could not be read. -/
  | unreadable (reason : Text)
deriving DecidableEq, Repr, Inhabited

namespace Failure

/-- The code under which a failure is reported. -/
def code : Failure → Text
  | .unexpected .. => "docblock::unexpected_token".toList
  | .unplaced _ => "docblock::missing_position_range".toList
  | .unresolved .. => "docblock::unresolved_annotation".toList
  | .badSettings => "docblock::config_parse".toList
  | .unreadable _ => "docblock::io_error".toList

/-- The advice that goes with a failure. -/
def help? : Failure → Option Text
  | .unexpected .. =>
      some ("docblocks must open with ".toList ++ Text.ticked "/**".toList ++
        " and close with ".toList ++ Text.ticked "*/".toList)
  | .unplaced _ => some "this is a bug in the docblock engine, please report it".toList
  | .unresolved .. =>
      some ("a ".toList ++ Text.ticked "NameResolver".toList ++
        " must return a non-empty class name for every tag it claims".toList)
  | .badSettings =>
      some ("check that docblock.toml is valid TOML with ".toList ++
        "[annotations], [silent_keys] and/or [host] sections".toList)
  | .unreadable _ => none

/-- The message of a failure, for those that are described by one. -/
def message? : Failure → Option Text
  | .unexpected expected found place =>
      some ("expected ".toList ++ expected.describe ++ " at token ".toList ++ Text.ofNat place ++
        ", found ".toList ++ (found.map Text.ticked).getD "end of input".toList)
  | .unplaced label =>
      some ("node ".toList ++ Text.ticked label ++ " was expected to carry a position range".toList)
  | .unresolved tag name =>
      some ("tag ".toList ++ Text.ticked tag ++
        " was claimed by the name resolver but resolved to ".toList ++ Text.ticked name ++
        ", which names no class".toList)
  | .badSettings => none
  | .unreadable reason => some reason

end Failure

end DocComment
