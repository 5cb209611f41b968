import DocComment.Rendering.Separator

/-!
# Rendering entries

The text of an entry that is not copied from the source.  A description that
was recorded as it was written is put back over its words.
-/

namespace DocComment

/-- The decoration in front of every rendered line. -/
def linePrefix : Text :=
  ['\n', ' ', '*', ' ']

/-- The text with a decorated line for every line behind its first one. -/
def decorate (text : Text) : Text :=
  Text.replaceChar '\n' linePrefix text

/-- What stands behind the given words, when a text starts with them and blanks lie between. -/
def afterWords? : List Text → Text → Option Text
  | [], text => some text
  | [word], text => Text.after? word text
  | word :: words, text =>
      (Text.after? word text).bind fun rest =>
        match rest with
        | [] => none
        | c :: _ => if isBlank c then afterWords? words (Text.trimStart rest) else none

namespace Tag

/-- Put the description of a rendered tag back as it was written. -/
def restoreWording (tag : Tag) (rendered : Text) : Text :=
  match tag.wording, tag.payload.description? with
  | some wording, some description =>
      if description.isEmpty then rendered
      else
        match Text.splitFirstBy? (afterWords? (Text.words description)) rendered with
        | some (before, behind) => before ++ wording ++ behind
        | none => rendered
  | _, _ => rendered

/-- The text of a tag that comes from the source and was changed. -/
def renderChanged (source : Text) (tag : Tag) : Text :=
  match Text.trimStart tag.payload.render with
  | [] => tag.name
  | payload => tag.restoreWording (tag.name ++ Separator.ofTag source tag ++ payload)

end Tag

namespace Entry

/-- The text of an entry that does not come from the source. -/
def renderFresh : Entry → Text
  | .prose p => p.text
  | .tag t => t.restoreWording t.render

/-- The text of an entry that comes from the source and was changed. -/
def renderChanged (source : Text) : Entry → Text
  | .prose p => p.text
  | .tag t => t.renderChanged source

end Entry

end DocComment
