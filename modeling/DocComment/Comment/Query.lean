import DocComment.Annotation.Naming
import DocComment.Comment.Basic

/-!
# Questions about comments

Look-ups among the tags of a comment: by name, by the kind of payload, by the
class of an annotation and by the variable of a parameter.
-/

namespace DocComment

namespace Comment

/-- The tags with the given name. -/
def tagsNamed (name : Text) (comment : Comment) : List Tag :=
  comment.tags.filter fun tag => tag.name == name

/-- Whether a tag is an annotation of the given class. -/
def hasAnnotation (name : Text) (comment : Comment) : Bool :=
  comment.tags.any fun tag =>
    match tag.payload with
    | .call call => dropBackslashes call.name == dropBackslashes name
    | _ => false

/-- The first payload of the given kind. -/
def firstPayload? (kind : Payload.Kind) (comment : Comment) : Option Payload :=
  (comment.tags.map Tag.payload).find? fun payload => payload.kind == kind

/-- The payload of the parameter with the given name. -/
def param? (name : Text) (comment : Comment) : Option Payload :=
  (comment.tags.map Tag.payload).find? fun payload =>
    payload.kind == .typed .param && (payload.variableName?.map (sameVariable name)).getD false

end Comment

end DocComment
