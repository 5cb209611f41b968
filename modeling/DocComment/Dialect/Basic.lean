import DocComment.Annotation.Naming
import DocComment.Payload.Reader

/-!
# Dialects

A dialect says how tags are read: by rules for single tags, which go first,
and by the naming that makes annotations of tags.
-/

namespace DocComment

/-- A rule of its own for the payload of some tags. -/
structure TagRule where
  /-- The tags that the rule is for. -/
  claims : Text → Bool
  /-- Take the payload, from the first token behind the name on. -/
  payload : Read Payload

namespace TagRule

/-- Keep the payload of the named tags, in any ASCII case, as it is written. -/
def verbatim (names : List Text) : TagRule where
  claims tag := names.any fun name => Text.sameIgnoringCase name tag
  payload := return .plain (← Payload.Grammar.plainText)

end TagRule

/-- How the tags of a comment are read. -/
structure Dialect where
  /-- The rules in the order of their precedence. -/
  rules : List TagRule
  naming : Naming

namespace Dialect

/-- The dialect without rules and without annotations. -/
def plain : Dialect :=
  ⟨[], Naming.plain⟩

/-- The rule for a tag. -/
def rule? (dialect : Dialect) (tag : Text) : Option TagRule :=
  dialect.rules.find? fun rule => rule.claims tag

/-- Whether a rule or the resolver claims a tag. -/
def claims (dialect : Dialect) (tag : Text) : Bool :=
  (dialect.rules.any fun rule => rule.claims tag) || (dialect.naming.resolve tag).isSome

/-- The dialect in another scope. -/
def inScope (dialect : Dialect) (scope : Scope) : Dialect :=
  { dialect with naming := { dialect.naming with scope } }

end Dialect

end DocComment
