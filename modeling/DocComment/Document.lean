import DocComment.Comment.Basic
import DocComment.Token.Scan

/-!
# Documents

A document is a comment together with what it was read from: the comment as it
was at first and the tokens of the source.
-/

namespace DocComment

/-- A comment and its source. -/
structure Document where
  /-- The comment as it is now. -/
  comment : Comment
  /-- The comment as it was read. -/
  asRead : Comment
  tokens : List Token
deriving DecidableEq, Repr

namespace Document

/-- A document that was just read. -/
def ofComment (comment : Comment) (tokens : List Token) : Document :=
  ⟨comment, comment, tokens⟩

/-- The text that the document was read from. -/
def source (document : Document) : Text :=
  Token.textOf document.tokens

/-- Whether the comment is no longer the one that was read. -/
def isModified (document : Document) : Bool :=
  document.comment != document.asRead

/-- The document with another comment in the place of the present one. -/
def withComment (document : Document) (comment : Comment) : Document :=
  { document with comment }

end Document

end DocComment
