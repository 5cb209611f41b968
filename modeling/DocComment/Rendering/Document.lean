import DocComment.Rendering.Cleanup
import DocComment.Rendering.Layout

/-!
# Rendering documents

The text of a document.  A comment without source is written from nothing.  A
comment of which nothing is left has no text.  Any other comment is laid out
among the tokens of its source and cleaned up.
-/

namespace DocComment

namespace Comment

/-- The text of a comment that has no source, before it is cleaned up. -/
def freshText (comment : Comment) : Text :=
  Cleanup.opener ++
    comment.entries.flatMap (fun entry => linePrefix ++ decorate entry.renderFresh) ++
    ['\n', ' '] ++ Cleanup.closer

/-- The text of a comment that has no source. -/
def renderFresh (comment : Comment) : Text :=
  if comment.entries.isEmpty then []
  else Cleanup.finish true comment.onOneLine comment.freshText

end Comment

namespace Document

/-- The text of a document laid out among its tokens, and whether that is an edited text. -/
def laidOut (document : Document) (removed : List Span) : Text × Bool :=
  let (pieces, progress) :=
    Layout.placeAll document removed (Layout.start removed) document.comment.entries
  (Layout.textOf pieces ++ Layout.tail document removed progress, progress.edited)

/-- The text of a document. -/
def render (document : Document) : Except Failure Text :=
  if document.tokens.isEmpty then .ok document.comment.renderFresh
  else if !document.asRead.isVoid && document.comment.isVoid then .ok []
  else do
    let removed ← Layout.removedSpans document
    let (text, edited) := document.laidOut removed
    return Cleanup.finish edited document.comment.onOneLine text

end Document

end DocComment
