import DocComment.Annotation.Basic
import DocComment.Text.Blank
import DocComment.TypeExpr.Basic

/-!
# Payloads

The payload of a tag is what stands behind its name.  Typed payloads have a
subject, the part that a grammar fixes, and a description behind it.
-/

namespace DocComment

/-- The part of a typed payload in front of its description. -/
inductive Subject where
  /-- A parameter; its name has the dollar sign. -/
  | param (type : Option TypeExpr) (byReference variadic : Bool) (name : Text)
  /-- What a function returns. -/
  | returned (type : TypeExpr)
  /-- A variable or a property. -/
  | var (type : Option TypeExpr) (name : Option Text)
  /-- What a function throws. -/
  | thrown (type : TypeExpr)
deriving DecidableEq, Repr

namespace Subject

/-- The kinds of subject. -/
inductive Kind where
  | param
  | returned
  | var
  | thrown
deriving DecidableEq, Repr

/-- The kind of a subject. -/
def kind : Subject → Kind
  | .param .. => .param
  | .returned _ => .returned
  | .var .. => .var
  | .thrown _ => .thrown

/-- The kind of subject that belongs to a tag name, in any ASCII case. -/
def Kind.ofTagName? (name : Text) : Option Kind :=
  let lower := Text.lowerAscii name
  let isOneOf (names : List Text) : Bool := names.contains lower
  if isOneOf ["@param".toList, "@phpstan-param".toList, "@psalm-param".toList] then some .param
  else if isOneOf ["@return".toList, "@phpstan-return".toList, "@psalm-return".toList] then
    some .returned
  else if isOneOf ["@var".toList, "@phpstan-var".toList, "@psalm-var".toList] then some .var
  else if isOneOf ["@throws".toList, "@phpstan-throws".toList] then some .thrown
  else none

/-- The type of a subject. -/
def type? : Subject → Option TypeExpr
  | .param type _ _ _ => type
  | .returned type => some type
  | .var type _ => type
  | .thrown type => some type

/-- The variable that a subject names. -/
def variableName? : Subject → Option Text
  | .param _ _ _ name => some name
  | .var _ name => name
  | .returned _ | .thrown _ => none

/-- The subject with another type. -/
def withType (type : TypeExpr) : Subject → Subject
  | .param _ byReference variadic name => .param (some type) byReference variadic name
  | .returned _ => .returned type
  | .var _ name => .var (some type) name
  | .thrown _ => .thrown type

/-- The written type, empty where there is none. -/
def typeText (type : Option TypeExpr) : Text :=
  (type.map TypeExpr.render).getD []

/-- The written parts of a subject, of which some may be empty. -/
def parts : Subject → List Text
  | .param type byReference variadic name =>
      [typeText type,
        (if byReference then ['&'] else []) ++ (if variadic then ['.', '.', '.'] else []) ++ name]
  | .returned type => [type.render]
  | .var type name => [typeText type, name.getD []]
  | .thrown type => [type.render]

end Subject

/-- What stands behind the name of a tag. -/
inductive Payload where
  /-- Text that is kept as it was written. -/
  | plain (text : Text)
  /-- A payload with a grammar of its own, and the words behind it. -/
  | typed (subject : Subject) (description : Text)
  /-- An annotation. -/
  | call (call : Annotation)
  /-- The content was taken away. -/
  | cleared
deriving DecidableEq, Repr

namespace Payload

/-- The kinds of payload. -/
inductive Kind where
  | plain
  | typed (subject : Subject.Kind)
  | call
  | cleared
deriving DecidableEq, Repr

/-- The kind of a payload. -/
def kind : Payload → Kind
  | .plain _ => .plain
  | .typed subject _ => .typed subject.kind
  | .call _ => .call
  | .cleared => .cleared

/-- The word for a kind of payload in a listing. -/
def Kind.word : Kind → Text
  | .plain => "generic".toList
  | .typed .param => "param".toList
  | .typed .returned => "return".toList
  | .typed .var => "var".toList
  | .typed .thrown => "throws".toList
  | .call => "annotation".toList
  | .cleared => "empty".toList

/-- Whether payloads of a kind have a grammar of their own. -/
def Kind.isTyped : Kind → Bool
  | .typed _ => true
  | _ => false

/-- The subject of a typed payload. -/
def subject? : Payload → Option Subject
  | .typed subject _ => some subject
  | _ => none

/-- The description of a typed payload. -/
def description? : Payload → Option Text
  | .typed _ description => some description
  | _ => none

/-- The type that a payload carries. -/
def type? (payload : Payload) : Option TypeExpr :=
  payload.subject?.bind Subject.type?

/-- The variable that a payload names. -/
def variableName? (payload : Payload) : Option Text :=
  payload.subject?.bind Subject.variableName?

/-- The payload with another type, if it is one that carries a type. -/
def withType? (type : TypeExpr) : Payload → Option Payload
  | .typed subject description => some (.typed (subject.withType type) description)
  | _ => none

/-- The payload with another description, if it has one. -/
def withDescription? (description : Text) : Payload → Option Payload
  | .typed subject _ => some (.typed subject description)
  | _ => none

/-- The written form of a payload. -/
def render : Payload → Text
  | .plain text => text
  | .typed subject description => Text.joinParts (subject.parts ++ [description])
  | .call c => c.render
  | .cleared => []

end Payload

/-- A name without the dollar signs in front. -/
def dropDollars (name : Text) : Text :=
  name.dropWhile (· == '$')

/-- Whether a name is that of a variable, with or without its dollar sign. -/
def sameVariable (first second : Text) : Bool :=
  dropDollars first == dropDollars second

end DocComment
