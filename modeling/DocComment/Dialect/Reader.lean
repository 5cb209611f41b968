import DocComment.Annotation.Reader
import DocComment.Dialect.Basic
import DocComment.Document

/-!
# Reading comments

The grammar of comments.  An opening marker comes first and may share its line
with an entry; every further line holds one entry.  A payload that does not
fit its rule or its grammar is read again as a plain one.
-/

namespace DocComment

namespace Dialect

variable (dialect : Dialect)

/-! ## Tags -/

/-- Take the name of a tag, joined with the name glued to it when the dialect claims the two. -/
def tagName : Read Text := do
  let tag := (← get).text
  Read.step
  let cursor ← get
  if cursor.isAt .name && dialect.claims (tag ++ cursor.text) then
    Read.advance
    return tag ++ cursor.text
  else
    Read.move Cursor.skipPadding
    return tag

/-- The payload that a plain text is for a tag: an annotation if it is one, or the text itself. -/
def plainOrAnnotation (tag text : Text) : Except Failure Payload :=
  match dialect.naming.resolve tag with
  | none => .ok (.plain text)
  | some name =>
      if name.all (· == '\\') then .error (.unresolved tag name)
      else
        match Annotation.ofPayload dialect.naming name text with
        | .ok (some call) => .ok (.call call)
        | .ok none | .error _ => .ok (.plain text)

/-- Take the payload of a tag for which there is no rule and no grammar, or none that fits. -/
def genericPayload (tag : Text) : Read Payload := do
  let text ← Payload.Grammar.plainText
  match dialect.plainOrAnnotation tag text with
  | .ok payload => return payload
  | .error failure => throw failure

/-- Take a payload by the rule or the grammar for the tag, if there is one that fits. -/
def specificPayload (tag : Text) : Read (Option (Payload × Option Text)) :=
  match dialect.rule? tag with
  | some rule => do return (← Read.attempt rule.payload).map fun payload => (payload, none)
  | none =>
      match Subject.Kind.ofTagName? tag with
      | some kind => Read.attempt (Payload.Grammar.typedWithWording kind)
      | none => return none

/-- Take the payload of a tag, with its description as it was written. -/
def payload (tag : Text) : Read (Payload × Option Text) := do
  match ← specificPayload dialect tag with
  | some result => return result
  | none => return (← genericPayload dialect tag, none)

/--
How many tokens there are up to the parenthesis that closes the first open
one, with the given number of parentheses open in front.
-/
def closeLength? : Nat → List Token → Option Nat
  | _, [] => none
  | depth, token :: rest =>
      match token.kind with
      | .roundOpen => (closeLength? (depth + 1) rest).map (· + 1)
      | .roundClose => if depth ≤ 1 then some 1 else (closeLength? (depth - 1) rest).map (· + 1)
      | _ => (closeLength? depth rest).map (· + 1)

/--
The end of a tag whose payload was read up to a place.  When a parenthesis
opens there, the end lies behind the one that closes it, or in front of the
last token if none does.
-/
def bracketEnd (tokens : List Token) (place : Nat) : Nat :=
  if Token.kindAt? tokens place = some .roundOpen then
    match closeLength? 0 (tokens.drop place) with
    | some length => place + length
    | none => tokens.length - 1
  else place

/-- Take a tag. -/
def tag : Read Entry := do
  let start := (← get).index
  let name ← tagName dialect
  let (payload, wording) ← payload dialect name
  let cursor ← get
  let stop := bracketEnd cursor.tokens (cursor.significantEnd (start + 1))
  if stop > cursor.index then Read.move (Cursor.jumpTo stop)
  return .tag ⟨name, payload, some (.between start stop), wording⟩

/-! ## Entries -/

/-- Take a line of prose. -/
def prose : Read Entry := do
  let start := (← get).index
  Read.move Cursor.toLineEnd
  let cursor ← get
  let span := Span.between start (cursor.significantEnd start)
  return .prose ⟨Text.trim (span.textIn cursor.tokens), some span⟩

/-- Take an entry. -/
def entry : Read Entry := do
  if (← get).isAt .tag then tag dialect else prose

/--
Take the entries that follow the first one.  Where a rule has stopped within
its line, the rest of that line is prose.
-/
def furtherEntries : Nat → Read (List Entry)
  | 0 => return []
  | bound + 1 => do
      if (← get).isAtClose then
        return []
      else if ← Read.accept .lineBreak then
        if (← get).isAtClose then return []
        else
          let next ← entry dialect
          return next :: (← furtherEntries bound)
      else
        let next ← prose
        return next :: (← furtherEntries bound)

/-- Take all entries up to the closing marker. -/
def entries : Read (List Entry) := do
  if (← get).isAtClose then return []
  else
    let first ← entry dialect
    return first :: (← furtherEntries dialect ((← get).rest.length + 1))

/-- Take a comment from its opening marker to its closing one. -/
def comment : Read Comment := do
  let _ ← Read.expect .opening
  let _ ← Read.accept .lineBreak
  let entries ← entries dialect
  let _ ← Read.accept .closing
  return Comment.ofEntries entries

/-- Read a document. -/
def read (text : Text) : Except Failure Document := do
  let tokens := Token.scan text
  let comment ← (comment dialect).valueAt (Cursor.ofTokens tokens)
  return Document.ofComment comment tokens

end Dialect

end DocComment
