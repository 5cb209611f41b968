import DocComment.Proofs.Rendering.Beginning
import DocComment.Proofs.Rendering.Gap
import DocComment.Rendering.Document

/-!
# Walking the source

Rendering as a machine does it.  The walk goes through the tokens place by place, jumps over the
spans that are left out, and looks back in front of a span one place at a time.  Every access to
tokens, entries and characters is checked, and every loop has a bound that is known before it
starts.

Whatever the spans of the entries are, no access goes astray and no loop reaches its bound
(`copy_eq`, `widen_eq`, `placeAll_eq`): the walk gives what `Document.render` gives, and it fails
only for an entry that was read and does not say where it stood.
-/

namespace DocComment

/-- How a walk ends early. -/
inductive Halt where
  /-- What is rendered does not allow it. -/
  | failed (failure : Failure)
  /-- A place that does not exist was to be accessed. -/
  | beyond (place : Nat)
  /-- A loop went on to its bound. -/
  | unending
deriving DecidableEq, Repr

namespace Walk

open Token Layout

/-! ## Checked access -/

section Access

variable {α : Type}

/-- The item at a place, which must exist. -/
def itemAt (items : List α) (place : Nat) : Except Halt α :=
  match items[place]? with
  | some item => .ok item
  | none => .error (.beyond place)

/-- The items between two places, which must exist and be in order. -/
def part (items : List α) (start stop : Nat) : Except Halt (List α) :=
  if start ≤ stop ∧ stop ≤ items.length then .ok ((items.take stop).drop start)
  else .error (.beyond stop)

/-- The place in front of a place, which must not be the first. -/
def inFront : Nat → Except Halt Nat
  | 0 => .error (.beyond 0)
  | place + 1 => .ok place

theorem part_eq {items : List α} {start stop : Nat} (ordered : start ≤ stop)
    (within : stop ≤ items.length) : part items start stop = .ok ((items.take stop).drop start) :=
  if_pos ⟨ordered, within⟩

theorem part_append (before inside behind : List α) :
    part (before ++ (inside ++ behind)) before.length (before.length + inside.length) =
      .ok inside := by
  rw [part_eq (Nat.le_add_right _ _) (by simp only [List.length_append]; omega), List.take_append,
    List.take_of_length_le (Nat.le_add_right _ _), Nat.add_sub_cancel_left, List.drop_left,
    List.take_left]

end Access

/-- The text between two places, each of them cut down to what exists. -/
def textBetween (tokens : List Token) (start stop : Nat) : Except Halt Text := do
  let stop := min stop tokens.length
  let inside ← part tokens (min start stop) stop
  return textOf inside

theorem textBetween_eq (tokens : List Token) (start stop : Nat) :
    textBetween tokens start stop = .ok (Token.textBetween tokens start stop) := by
  have same : (tokens.take (min stop tokens.length)).drop (min start (min stop tokens.length)) =
      (tokens.take stop).drop start := by
    rw [← List.take_eq_take_min]
    rcases Nat.le_total start (min stop tokens.length) with inside | outside
    · rw [Nat.min_eq_left inside]
    · rw [Nat.min_eq_right outside, List.drop_eq_nil_of_le (by rw [List.length_take]),
        List.drop_eq_nil_of_le (by rw [List.length_take]; exact outside)]
  rw [textBetween, part_eq (Nat.min_le_right _ _) (Nat.min_le_right _ _), same]
  rfl

/-! ## Copying -/

/--
Copy the tokens from a place on, jumping behind each span that is left out.  The first number
bounds how often the loop goes on.
-/
def copy (tokens : List Token) (spans : List Span) (stop : Nat) : Nat → Nat → Except Halt Text
  | 0, place => if place < min stop tokens.length then .error .unending else .ok []
  | bound + 1, place =>
      if place < min stop tokens.length then
        match spans.find? (·.contains place) with
        | some span => copy tokens spans stop bound span.stop
        | none => do
            let token ← itemAt tokens place
            let behind ← copy tokens spans stop bound (place + 1)
            return token.text ++ behind
      else .ok []

theorem gap_of_le (tokens : List Token) (spans : List Span) {start stop : Nat}
    (outside : min stop tokens.length ≤ start) : gap tokens spans start stop = [] := by
  rw [gap, List.drop_eq_nil_of_le (by rw [List.length_take]; exact outside)]
  rfl

/-- A jump to the end of a span leaves out what the span covers and nothing else. -/
theorem gap_of_contains {tokens : List Token} {spans : List Span} {span : Span} (mem : span ∈ spans)
    {place stop : Nat} (inside : span.contains place = true) :
    gap tokens spans place stop = gap tokens spans span.stop stop := by
  obtain ⟨low, high⟩ := Span.contains_iff.mp inside
  rcases Nat.le_total span.stop stop with within | across
  · rw [← gap_append tokens spans (Nat.le_of_lt high) within,
      gap_of_covered tokens mem low (Nat.le_refl _), List.nil_append]
  · rw [gap_of_covered tokens mem low across,
      gap_of_le tokens spans (Nat.le_trans (Nat.min_le_left _ _) across)]

/-- Every round of the loop comes closer to the end, so the length of the source bounds it. -/
theorem copy_of_le (tokens : List Token) (spans : List Span) (stop : Nat) {bound place : Nat}
    (enough : min stop tokens.length ≤ place + bound) :
    copy tokens spans stop bound place = .ok (gap tokens spans place stop) := by
  induction bound generalizing place with
  | zero =>
      rw [Nat.add_zero] at enough
      rw [copy, if_neg (Nat.not_lt.mpr enough), gap_of_le tokens spans enough]
  | succ bound ih =>
      rw [copy]
      split
      next inside =>
        have within : place < tokens.length := Nat.lt_of_lt_of_le inside (Nat.min_le_right _ _)
        cases found : spans.find? (·.contains place) with
        | some span =>
            have covered := List.find?_some found
            have ahead := (Span.contains_iff.mp covered).2
            rw [gap_of_contains (List.mem_of_find?_eq_some found) covered]
            exact ih (by omega)
        | none =>
            have clear : spans.any (·.contains place) = false := by
              simpa only [List.any_eq_false] using List.find?_eq_none.mp found
            have stands := List.getElem?_eq_getElem within
            rw [gap_step tokens spans (Nat.lt_of_lt_of_le inside (Nat.min_le_left _ _)), clear,
              textAt_of_getElem? stands]
            change (itemAt tokens place >>= _) = _
            rw [itemAt, stands]
            change (copy tokens spans stop bound (place + 1) >>= _) = _
            rw [ih (by omega)]
            rfl
      next outside => rw [gap_of_le tokens spans (Nat.not_lt.mp outside)]

theorem copy_eq (tokens : List Token) (spans : List Span) (start stop : Nat) :
    copy tokens spans stop tokens.length start = .ok (gap tokens spans start stop) :=
  copy_of_le tokens spans stop (Nat.le_trans (Nat.min_le_right _ _) (Nat.le_add_left _ _))

/-! ## Looking back -/

/-- Go back over padding, but not behind `floor`; the first number bounds how far. -/
def backOverPadding (tokens : List Token) (floor : Nat) : Nat → Nat → Except Halt Nat
  | 0, place =>
      if floor < place && kindAt? tokens (place - 1) == some .padding then .error .unending
      else .ok place
  | bound + 1, place =>
      if floor < place then do
        let before ← inFront place
        if kindAt? tokens before == some .padding then backOverPadding tokens floor bound before
        else return place
      else .ok place

/-- Go back over one line break, but not behind `floor`. -/
def backOverBreak (tokens : List Token) (floor place : Nat) : Except Halt Nat :=
  if floor < place then do
    let before ← inFront place
    return if kindAt? tokens before == some .lineBreak then before else place
  else .ok place

/-- The span with the padding and the line break in front of it, but nothing in front of `floor`. -/
def widen (tokens : List Token) (floor : Nat) (span : Span) : Except Halt Span := do
  let place ← backOverPadding tokens floor tokens.length span.start
  let start ← backOverBreak tokens floor place
  return .between start span.stop

/-- There is padding in front of a place only up to the end of the source, so its
length bounds the way back. -/
theorem backOverPadding_of_le {tokens : List Token} {floor bound place : Nat}
    (enough : place ≤ bound ∨ tokens.length < place) :
    backOverPadding tokens floor bound place = .ok (Layout.backOverPadding tokens floor place) := by
  induction bound generalizing place with
  | zero =>
      cases place with
      | zero => rfl
      | succ before =>
          have behind : tokens.length ≤ before := by omega
          have nothing : kindAt? tokens before = none := by
            rw [kindAt?, List.getElem?_eq_none behind]
            rfl
          rw [backOverPadding, Layout.backOverPadding, Nat.add_sub_cancel, nothing]
          simp
  | succ bound ih =>
      cases place with
      | zero => rfl
      | succ before =>
          have step : backOverPadding tokens floor (bound + 1) (before + 1) =
              if floor < before + 1 then
                if kindAt? tokens before == some .padding then
                  backOverPadding tokens floor bound before
                else .ok (before + 1)
              else .ok (before + 1) := rfl
          rw [step, Layout.backOverPadding]
          cases padded : kindAt? tokens before == some .padding with
          | false => by_cases low : floor < before + 1 <;> simp [low]
          | true =>
              obtain ⟨_, stands, _⟩ := kindAt?_eq_some_iff.mp (beq_iff_eq.mp padded)
              have within := (List.getElem?_eq_some_iff.mp stands).1
              rw [ih (by omega)]
              by_cases low : floor < before + 1 <;> simp [low]

theorem backOverBreak_eq (tokens : List Token) (floor place : Nat) :
    backOverBreak tokens floor place = .ok (Layout.backOverBreak tokens floor place) := by
  cases place with
  | zero => rfl
  | succ before =>
      have step : backOverBreak tokens floor (before + 1) =
          if floor < before + 1 then
            .ok (if kindAt? tokens before == some .lineBreak then before else before + 1)
          else .ok (before + 1) := rfl
      rw [step, Layout.backOverBreak]
      by_cases low : floor < before + 1 <;> simp [low]

theorem widen_eq (tokens : List Token) (floor : Nat) (span : Span) :
    widen tokens floor span = .ok (Layout.widen tokens floor span) := by
  rw [widen, backOverPadding_of_le (Nat.lt_or_ge tokens.length span.start).symm]
  change (backOverBreak tokens floor _ >>= _) = _
  rw [backOverBreak_eq]
  rfl

/-! ## Spans that are left out -/

/-- Widen spans in their order, each no further than up to the one before. -/
def widenAll (tokens : List Token) : Nat → List Span → Except Halt (List Span)
  | _, [] => .ok []
  | floor, span :: spans => do
      let widened ← widen tokens floor span
      let others ← widenAll tokens span.stop spans
      return widened :: others

/-- The widened spans of the entries that were read and that no present entry carries. -/
def removedSpans (document : Document) : Except Halt (List Span) := do
  let spans ← (spansOf document.asRead.entries).mapError Halt.failed
  let removed := spans.filter fun span => !carries document.comment.entries span
  widenAll document.tokens 0 (Span.sort removed)

/--
The widened spans of the entries behind a position that stand in the source between two places and
yet come later.
-/
def deferredSpans (document : Document) (position start stop : Nat) : Except Halt (List Span) := do
  let later ← part document.comment.entries (position + 1) document.comment.entries.length
  ((later.filterMap Entry.span?).filter fun span => start ≤ span.start && span.stop ≤ stop).mapM
    (widen document.tokens start)

theorem widenAll_eq (tokens : List Token) (floor : Nat) (spans : List Span) :
    widenAll tokens floor spans = .ok (Layout.widenAll tokens floor spans) := by
  induction spans generalizing floor with
  | nil => rfl
  | cons span spans ih =>
      rw [widenAll, widen_eq]
      change (widenAll tokens span.stop spans >>= _) = _
      rw [ih]
      rfl

theorem removedSpans_eq (document : Document) :
    removedSpans document = (Layout.removedSpans document).mapError Halt.failed := by
  rw [removedSpans, Layout.removedSpans]
  cases spansOf document.asRead.entries with
  | error failure => rfl
  | ok spans => exact widenAll_eq _ _ _

theorem mapM_widen (tokens : List Token) (floor : Nat) (spans : List Span) :
    spans.mapM (widen tokens floor) = .ok (spans.map (Layout.widen tokens floor)) := by
  rw [funext (widen_eq tokens floor)]
  exact List.mapM_pure

variable {document : Document} {before later : List Entry} {entry : Entry}

theorem deferredSpans_eq (whole : document.comment.entries = before ++ entry :: later)
    (start stop : Nat) :
    deferredSpans document before.length start stop =
      .ok (Layout.deferredSpans document.tokens later start stop) := by
  have behind : part document.comment.entries (before.length + 1) document.comment.entries.length =
      .ok later := by
    have cut := part_append (before ++ [entry]) later []
    rw [List.append_nil, List.append_assoc, List.singleton_append, ← whole] at cut
    rw [← cut, whole]
    simp only [List.length_append, List.length_cons, List.length_nil]
    rw [Nat.add_right_comm, Nat.add_assoc _ _ 1]
  rw [deferredSpans, behind]
  exact mapM_widen _ _ _

/-! ## Placing entries -/

section Placing

variable (document : Document) (removed : List Span) (original : Text)

/-- Place an entry without a span. -/
def placeFresh (progress : Progress) (entry : Entry) : Except Halt (Piece × Progress) :=
  if progress.place = 0 then do
    let opening := openingEnd document.tokens
    let front ← copy document.tokens removed opening document.tokens.length 0
    return (⟨front ++ linePrefix, decorate entry.renderFresh⟩, ⟨opening, true, true⟩)
  else .ok (⟨linePrefix, decorate entry.renderFresh⟩, ⟨progress.place, true, true⟩)

/-- What leads up to an entry with a span. -/
def leadOf (position : Nat) (progress : Progress) (span : Span) : Except Halt Text :=
  if span.start < progress.place then .ok linePrefix
  else do
    let deferred ← deferredSpans document position progress.place span.start
    let between ← copy document.tokens (removed ++ deferred) span.start document.tokens.length
      progress.place
    return if progress.afterFresh && !between.contains '\n' then linePrefix else between

/-- The text of an entry with a span. -/
def bodyOf (entry : Entry) (span : Span) : Except Halt Text :=
  if isUntouched document.asRead entry span then textBetween document.tokens span.start span.stop
  else .ok (decorate (entry.renderChanged original))

/-- Place an entry with a span. -/
def placeSourced (position : Nat) (progress : Progress) (entry : Entry) (span : Span) :
    Except Halt (Piece × Progress) := do
  let lead ← leadOf document removed position progress span
  let body ← bodyOf document original entry span
  let edited := progress.edited || span.start < progress.place ||
    !isUntouched document.asRead entry span
  return (⟨lead, body⟩, ⟨max progress.place span.stop, edited, false⟩)

/-- Place the entry at a position. -/
def place (position : Nat) (progress : Progress) (entry : Entry) : Except Halt (Piece × Progress) :=
  match entry.span? with
  | none => placeFresh document removed progress entry
  | some span => placeSourced document removed original position progress entry span

/-- Place entries one after the other, from a position on. -/
def placeAll : Nat → Progress → List Entry → Except Halt (List Piece × Progress)
  | _, progress, [] => .ok ([], progress)
  | position, progress, entry :: later => do
      let (piece, next) ← place document removed original position progress entry
      let (pieces, last) ← placeAll (position + 1) next later
      return (piece :: pieces, last)

/-- The rest of the source behind the last entry. -/
def tail (progress : Progress) : Except Halt Text :=
  copy document.tokens removed document.tokens.length document.tokens.length
    (tailStart document.tokens progress)

theorem placeFresh_eq (progress : Progress) (entry : Entry) :
    placeFresh document removed progress entry =
      .ok (Layout.placeFresh document removed progress entry) := by
  rw [placeFresh, Layout.placeFresh]
  split
  next =>
    change (copy _ _ _ _ _ >>= _) = _
    rw [copy_eq]
    rfl
  next => rfl

variable {document} {removed original}

theorem leadOf_eq (whole : document.comment.entries = before ++ entry :: later)
    (progress : Progress) (span : Span) :
    leadOf document removed before.length progress span =
      .ok (Layout.leadOf document removed progress span later) := by
  rw [leadOf, Layout.leadOf]
  split
  next => rfl
  next =>
    rw [deferredSpans_eq whole]
    change (copy _ _ _ _ _ >>= _) = _
    rw [copy_eq]
    rfl

theorem bodyOf_eq (entry : Entry) (span : Span) :
    bodyOf document document.source entry span =
      .ok (if isUntouched document.asRead entry span then span.textIn document.tokens
        else decorate (entry.renderChanged document.source)) := by
  rw [bodyOf, textBetween_eq]
  split <;> rfl

theorem place_eq (whole : document.comment.entries = before ++ entry :: later)
    (progress : Progress) :
    place document removed document.source before.length progress entry =
      .ok (Layout.place document removed progress entry later) := by
  rw [place, Layout.place]
  cases entry.span? with
  | none => exact placeFresh_eq document removed progress entry
  | some span =>
      change placeSourced _ _ _ _ _ _ _ = .ok (Layout.placeSourced _ _ _ _ _ _)
      rw [placeSourced, leadOf_eq whole]
      change (bodyOf _ _ _ _ >>= _) = _
      rw [bodyOf_eq]
      rfl

/-- The position counts the entries that were placed, so those behind it are always there. -/
theorem placeAll_eq (whole : document.comment.entries = before ++ later) (progress : Progress) :
    placeAll document removed document.source before.length progress later =
      .ok (Layout.placeAll document removed progress later) := by
  induction later generalizing before progress with
  | nil => rfl
  | cons entry later ih =>
      have behind : document.comment.entries = (before ++ [entry]) ++ later := by
        rw [whole, List.append_assoc, List.singleton_append]
      have placed := ih behind (Layout.place document removed progress entry later).2
      rw [List.length_append, List.length_singleton] at placed
      rw [placeAll, place_eq whole]
      change (placeAll _ _ _ _ (Layout.place document removed progress entry later).2 _ >>= _) = _
      rw [placed]
      rfl

end Placing

/-! ## Cleaning up -/

/-- Put the last closing marker of a text with several lines on a line of its own. -/
def closeOnOwnLine (text : Text) : Except Halt Text :=
  if text.contains '\n' then
    match (Text.splitLast? Cleanup.closer text).map fun found => found.1.length with
    | some place => do
        let before ← part text 0 place
        let lineStart := ((Text.splitLast? ['\n'] before).map fun found => found.1.length + 1).getD 0
        let line ← part text lineStart place
        if Text.isAllBlank line then return text
        else
          let behind ← part text (place + Cleanup.closer.length) text.length
          return Text.trimEnd before ++ ['\n', ' '] ++ Cleanup.closer ++ behind
    | none => .ok text
  else .ok text

/-- Clean up the text of a comment; white space is left alone unless it was edited. -/
def finish (edited oneLine : Bool) (text : Text) : Except Halt Text :=
  if text.isEmpty then .ok text
  else do
    let normal ←
      if edited then
        closeOnOwnLine (Text.substituteAll Cleanup.callablePadding
          (Text.substituteAll Cleanup.starPadding text))
      else pure text
    let complete := Cleanup.completeMarkers normal
    return if oneLine then Cleanup.onOneLine complete else complete

/-- What stands behind the last line feed has none in it. -/
theorem splitLast?_newline (text : Text) :
    Text.splitLast? ['\n'] text = none ∧ '\n' ∉ text ∨
      ∃ front line, Text.splitLast? ['\n'] text = some (front, line) ∧
        text = front ++ '\n' :: line ∧ '\n' ∉ line := by
  induction text with
  | nil => exact .inl ⟨rfl, List.not_mem_nil⟩
  | cons c rest ih =>
      rw [Text.splitLast?]
      rcases ih with ⟨none, one⟩ | ⟨front, line, found, split, one⟩
      · rw [none]
        by_cases feed : '\n' = c
        · subst feed
          exact .inr ⟨[], rest, rfl, rfl, one⟩
        · refine .inl ⟨?_, fun mem => (List.mem_cons.mp mem).elim feed one⟩
          change (Text.after? ['\n'] (c :: rest)).map _ = _
          rw [Text.after?, if_neg feed]
          rfl
      · rw [found]
        exact .inr ⟨c :: front, line, rfl, congrArg (c :: ·) split, one⟩

theorem lastLine_of_notMem {text : Text} (one : '\n' ∉ text) : Cleanup.lastLine text = text := by
  have whole : text.reverse.takeWhile (· != '\n') = text.reverse :=
    List.takeWhile_eq_self_iff.mpr fun c mem =>
      bne_iff_ne.mpr fun same => one (same ▸ List.mem_reverse.mp mem)
  rw [Cleanup.lastLine, whole, List.reverse_reverse]

theorem lastLine_append_newline {line : Text} (one : '\n' ∉ line) (front : Text) :
    Cleanup.lastLine (front ++ '\n' :: line) = line := by
  have stops : (front ++ '\n' :: line).reverse.takeWhile (· != '\n') = line.reverse := by
    rw [List.reverse_append, List.reverse_cons, List.append_assoc, List.takeWhile_append_of_pos,
      List.singleton_append, List.takeWhile_cons_of_neg (by simp), List.append_nil]
    exact fun c mem => bne_iff_ne.mpr fun same => one (same ▸ List.mem_reverse.mp mem)
  rw [Cleanup.lastLine, stops, List.reverse_reverse]

/-- The last line of a text is the part of it behind its last line feed. -/
theorem part_lastLine (before behind : Text) :
    part (before ++ behind)
      (((Text.splitLast? ['\n'] before).map fun found => found.1.length + 1).getD 0)
      before.length = .ok (Cleanup.lastLine before) := by
  rcases splitLast?_newline before with ⟨none, one⟩ | ⟨front, line, found, split, one⟩
  · have whole := part_append [] before behind
    rw [List.nil_append, List.length_nil, Nat.zero_add] at whole
    rw [none, lastLine_of_notMem one]
    exact whole
  · have within := part_append (front ++ ['\n']) line behind
    rw [List.append_assoc, List.length_append, List.length_singleton, List.singleton_append,
      ← List.cons_append, ← List.append_assoc, ← split] at within
    have ends : front.length + 1 + line.length = before.length := by
      rw [split, List.length_append, List.length_cons]
      omega
    rw [found, split, lastLine_append_newline one front, ← split, ← ends]
    exact within

theorem closeOnOwnLine_eq (text : Text) :
    closeOnOwnLine text = .ok (Cleanup.closeOnOwnLine text) := by
  rw [closeOnOwnLine, Cleanup.closeOnOwnLine]
  split
  next =>
    cases found : Text.splitLast? Cleanup.closer text with
    | none => rfl
    | some cut =>
        obtain ⟨before, behind⟩ := cut
        have split := Text.eq_append_of_splitLast? found
        have front := part_append [] before (Cleanup.closer ++ behind)
        have back := part_append (before ++ Cleanup.closer) behind []
        rw [List.nil_append, List.length_nil, Nat.zero_add, ← split] at front
        rw [List.append_nil, List.append_assoc, ← split, ← List.length_append, List.append_assoc,
          ← split, List.length_append] at back
        change (part text 0 before.length >>= _) = _
        rw [front]
        change (part text _ before.length >>= _) = _
        have line := part_lastLine before (Cleanup.closer ++ behind)
        rw [← split] at line
        rw [line]
        cases blank : Text.isAllBlank (Cleanup.lastLine before) with
        | true => simp [bind, Except.bind, pure, Except.pure, blank]
        | false => simp [bind, Except.bind, pure, Except.pure, blank, back]
  next => rfl

theorem finish_eq (edited oneLine : Bool) (text : Text) :
    finish edited oneLine text = .ok (Cleanup.finish edited oneLine text) := by
  rw [finish, Cleanup.finish]
  split
  next => rfl
  next =>
    cases edited with
    | false => rfl
    | true =>
        change (closeOnOwnLine _ >>= _) = _
        rw [closeOnOwnLine_eq]
        rfl

/-! ## Documents -/

/-- The text of a document. -/
def render (document : Document) : Except Halt Text := do
  let original ← textBetween document.tokens 0 document.tokens.length
  if document.tokens.isEmpty then
    if document.comment.entries.isEmpty then return []
    else finish true document.comment.onOneLine document.comment.freshText
  else if !document.asRead.isVoid && document.comment.isVoid then return []
  else
    let removed ← removedSpans document
    let (pieces, progress) ←
      placeAll document removed original 0 (start removed) document.comment.entries
    let rest ← tail document removed progress
    finish progress.edited document.comment.onOneLine (textOf pieces ++ rest)

theorem render_eq (document : Document) :
    render document = document.render.mapError Halt.failed := by
  have original : textBetween document.tokens 0 document.tokens.length = .ok document.source := by
    rw [textBetween_eq, Token.textBetween, List.take_length, List.drop_zero, Document.source]
  rw [render, original, Document.render]
  change (if _ then _ else _) = _
  split
  next =>
    rw [Comment.renderFresh]
    split
    next => rfl
    next => exact finish_eq _ _ _
  next =>
    split
    next => rfl
    next =>
      rw [removedSpans_eq]
      cases Layout.removedSpans document with
      | error failure => rfl
      | ok removed =>
          have placed : placeAll document removed document.source 0
              (start removed) document.comment.entries =
              .ok (Layout.placeAll document removed (start removed) document.comment.entries) :=
            placeAll_eq (List.nil_append document.comment.entries).symm (start removed)
          change (placeAll document removed _ 0 _ _ >>= _) = _
          rw [placed]
          change (tail document removed _ >>= _) = _
          rw [tail, copy_eq]
          exact finish_eq _ _ _

end Walk

/-! ## Failing -/

namespace Layout

/-- Spans are missing just when an entry has none, and the first such entry is to blame. -/
theorem spansOf_eq_error_iff {entries : List Entry} {failure : Failure} :
    spansOf entries = .error failure ↔
      ∃ entry, entries.find? (fun other => other.span?.isNone) = some entry ∧
        failure = .unplaced entry.label := by
  induction entries with
  | nil => exact ⟨nofun, fun ⟨_, found, _⟩ => nomatch found⟩
  | cons entry entries ih =>
      rw [spansOf]
      cases placed : entry.span? with
      | none =>
          rw [List.find?_cons_of_pos (by rw [placed]; rfl)]
          constructor
          · intro fails
            cases fails
            exact ⟨entry, rfl, rfl⟩
          · rintro ⟨_, ⟨⟩, rfl⟩
            rfl
      | some span =>
          rw [List.find?_cons_of_neg (by rw [placed]; exact Bool.false_ne_true), ← ih]
          cases spansOf entries with
          | error other => exact Iff.rfl
          | ok spans => exact ⟨nofun, nofun⟩

end Layout

namespace Document

variable {document : Document} {failure : Failure}

theorem removedSpans_eq_error_iff :
    Layout.removedSpans document = .error failure ↔
      Layout.spansOf document.asRead.entries = .error failure := by
  rw [Layout.removedSpans]
  cases Layout.spansOf document.asRead.entries with
  | error other => exact Iff.rfl
  | ok spans => exact ⟨nofun, nofun⟩

theorem render_eq_error_iff :
    document.render = .error failure ↔
      document.tokens ≠ [] ∧ ¬ (document.asRead.isVoid = false ∧ document.comment.isVoid = true) ∧
        Layout.spansOf document.asRead.entries = .error failure := by
  rw [← removedSpans_eq_error_iff, render, ← List.isEmpty_eq_false_iff]
  cases document.tokens.isEmpty with
  | true => exact ⟨nofun, fun ⟨proper, _⟩ => nomatch proper⟩
  | false =>
      rw [if_neg Bool.false_ne_true]
      split
      next emptied =>
        rw [Bool.and_eq_true, Bool.not_eq_true'] at emptied
        exact ⟨nofun, fun ⟨_, kept, _⟩ => absurd emptied kept⟩
      next kept =>
        rw [Bool.and_eq_true, Bool.not_eq_true'] at kept
        cases Layout.removedSpans document with
        | error other =>
            constructor
            · intro fails
              cases fails
              exact ⟨rfl, kept, rfl⟩
            · rintro ⟨_, _, ⟨⟩⟩
              rfl
        | ok removed => exact ⟨nofun, nofun⟩

/--
Every document is rendered by a walk that ends, that never accesses a place that does not exist, and
that gives the text of the document.  Rendering fails just when the source is not empty, the comment
was not emptied, and an entry that was read has no span; the failure names the first such entry.
-/
theorem walk_render (document : Document) :
    Walk.render document = document.render.mapError Halt.failed ∧
      ∀ failure, document.render = .error failure ↔
        document.tokens ≠ [] ∧ ¬ (document.asRead.isVoid = false ∧ document.comment.isVoid = true) ∧
          ∃ entry, document.asRead.entries.find? (fun other => other.span?.isNone) = some entry ∧
            failure = .unplaced entry.label := by
  refine ⟨Walk.render_eq document, fun failure => ?_⟩
  rw [render_eq_error_iff, Layout.spansOf_eq_error_iff]

end Document

end DocComment
