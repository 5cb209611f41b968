import DocComment.Document
import DocComment.Failure
import DocComment.Rendering.Entry

/-!
# Layout

Where each entry of a comment goes among the tokens of its source.  Entries
that did not change are copied, with the tokens between them.  The spans of
entries that are gone are left out, each with the line break in front of it.
An entry without a span starts a line of its own.

The result is a list of pieces, one for each entry: what leads up to the entry
and its own text.
-/

namespace DocComment

namespace Layout

/-! ## Spans that are left out -/

/-- Go back over padding, but not behind `floor`. -/
def backOverPadding (tokens : List Token) (floor : Nat) : Nat → Nat
  | 0 => 0
  | place + 1 =>
      if floor < place + 1 && Token.kindAt? tokens place == some .padding then
        backOverPadding tokens floor place
      else place + 1

/-- Go back over one line break, but not behind `floor`. -/
def backOverBreak (tokens : List Token) (floor : Nat) : Nat → Nat
  | 0 => 0
  | place + 1 =>
      if floor < place + 1 && Token.kindAt? tokens place == some .lineBreak then place
      else place + 1

/-- The span with the padding and the line break in front of it, but nothing in front of `floor`. -/
def widen (tokens : List Token) (floor : Nat) (span : Span) : Span :=
  .between (backOverBreak tokens floor (backOverPadding tokens floor span.start)) span.stop

/-- Widen spans in their order, each no further than up to the one before. -/
def widenAll (tokens : List Token) : Nat → List Span → List Span
  | _, [] => []
  | floor, span :: spans => widen tokens floor span :: widenAll tokens span.stop spans

/-- The spans of entries, all of which must have one. -/
def spansOf : List Entry → Except Failure (List Span)
  | [] => .ok []
  | entry :: entries => do
      match entry.span? with
      | none => throw (.unplaced entry.label)
      | some span => return span :: (← spansOf entries)

/-- Whether an entry of the list has the given span. -/
def carries (entries : List Entry) (span : Span) : Bool :=
  entries.any fun entry => entry.span? == some span

/-- The widened spans of the entries that were read and that no present entry carries. -/
def removedSpans (document : Document) : Except Failure (List Span) := do
  let spans ← spansOf document.asRead.entries
  let removed := spans.filter fun span => !carries document.comment.entries span
  return widenAll document.tokens 0 (Span.sort removed)

/--
The widened spans of the entries that come later and yet stand in the source
between two places.
-/
def deferredSpans (tokens : List Token) (later : List Entry) (start stop : Nat) : List Span :=
  ((later.filterMap Entry.span?).filter fun span => start ≤ span.start && span.stop ≤ stop).map
    (widen tokens start)

/-! ## Copied text -/

/-- The text of the tokens outside the given spans; the number is the place of the first token. -/
def textOutside (spans : List Span) : Nat → List Token → Text
  | _, [] => []
  | place, token :: rest =>
      (if spans.any (·.contains place) then [] else token.text) ++
        textOutside spans (place + 1) rest

/-- The text between two places outside the given spans. -/
def gap (tokens : List Token) (spans : List Span) (start stop : Nat) : Text :=
  textOutside spans start ((tokens.take stop).drop start)

/-- The place behind the first opening marker, or the start if there is none. -/
def openingEnd (tokens : List Token) : Nat :=
  match tokens.findIdx? fun token => token.kind == .opening with
  | some place => place + 1
  | none => 0

/-- Whether an entry is the one that was read with the given span. -/
def isUntouched (asRead : Comment) (entry : Entry) (span : Span) : Bool :=
  match asRead.entries.find? fun other => other.span? == some span with
  | some other => other == entry
  | none => false

/-! ## Placing entries -/

/-- An entry in the output: what leads up to it and its own text. -/
structure Piece where
  lead : Text
  body : Text
deriving DecidableEq, Repr

/-- How far the source has been used up. -/
structure Progress where
  /-- The tokens in front of this place have been dealt with. -/
  place : Nat
  /-- Whether the output differs from the source. -/
  edited : Bool
  /-- Whether the last piece came from no source. -/
  afterFresh : Bool
deriving DecidableEq, Repr

variable (document : Document) (removed : List Span)

/-- Place an entry without a span. -/
def placeFresh (progress : Progress) (entry : Entry) : Piece × Progress :=
  let opening := openingEnd document.tokens
  let atStart := progress.place = 0
  let lead := if atStart then gap document.tokens removed 0 opening else []
  (⟨lead ++ linePrefix, decorate entry.renderFresh⟩,
    ⟨if atStart then opening else progress.place, true, true⟩)

/-- What leads up to an entry with a span. -/
def leadOf (progress : Progress) (span : Span) (later : List Entry) : Text :=
  if span.start < progress.place then linePrefix
  else
    let deferred := deferredSpans document.tokens later progress.place span.start
    let between := gap document.tokens (removed ++ deferred) progress.place span.start
    if progress.afterFresh && !between.contains '\n' then linePrefix else between

/-- Place an entry with a span. -/
def placeSourced (progress : Progress) (entry : Entry) (span : Span) (later : List Entry) :
    Piece × Progress :=
  let untouched := isUntouched document.asRead entry span
  let body :=
    if untouched then span.textIn document.tokens
    else decorate (entry.renderChanged document.source)
  (⟨leadOf document removed progress span later, body⟩,
    ⟨max progress.place span.stop,
      progress.edited || span.start < progress.place || !untouched, false⟩)

/-- Place an entry in front of later ones. -/
def place (progress : Progress) (entry : Entry) (later : List Entry) : Piece × Progress :=
  match entry.span? with
  | none => placeFresh document removed progress entry
  | some span => placeSourced document removed progress entry span later

/-- Place entries one after the other. -/
def placeAll : Progress → List Entry → List Piece × Progress
  | progress, [] => ([], progress)
  | progress, entry :: later =>
      let (piece, next) := place document removed progress entry later
      let (pieces, last) := placeAll next later
      (piece :: pieces, last)

/-- Where the rest of the source starts; an edited comment loses an empty line there. -/
def tailStart (tokens : List Token) (progress : Progress) : Nat :=
  if progress.edited && Token.kindAt? tokens progress.place == some .lineBreak &&
      Token.kindAt? tokens (progress.place + 1) == some .lineBreak then
    progress.place + 1
  else progress.place

/-- The rest of the source behind the last entry. -/
def tail (progress : Progress) : Text :=
  gap document.tokens removed (tailStart document.tokens progress) document.tokens.length

/-- The text of pieces. -/
def textOf (pieces : List Piece) : Text :=
  pieces.flatMap fun piece => piece.lead ++ piece.body

/-- The progress in front of the first entry. -/
def start : Progress :=
  ⟨0, !removed.isEmpty, false⟩

end Layout

end DocComment
