import DocComment.Dialect.Reader
import DocComment.Proofs.Reading.Payload

/-!
# Where an entry stands

An entry starts where its reader starts and stops no later than where its
reader stops (`stands_of_entry`).  When every rule of the dialect keeps
payloads as they are written, the reader also stops at the end of a line and
leaves nothing but padding behind the entry (`fills_of_entry`).
-/

namespace DocComment

open Token

/-! ## Rules -/

namespace TagRule

/-- What the rule moves over, when it applies, belongs to a class. -/
def Crosses (p : Kind → Prop) (rule : TagRule) : Prop :=
  ∀ cursor payload after, rule.payload cursor = .ok payload after → cursor.Crosses p after

/-- The rule keeps the tokens and never moves back, when it applies. -/
def MovesForward (rule : TagRule) : Prop :=
  ∀ cursor payload after, rule.payload cursor = .ok payload after →
    after.tokens = cursor.tokens ∧ cursor.index ≤ after.index

theorem MovesForward.crosses {rule : TagRule} (forward : rule.MovesForward) :
    rule.Crosses fun _ => True := by
  intro cursor payload after run
  obtain ⟨tokens, index⟩ := forward cursor payload after run
  exact ⟨tokens, index, fun _ _ _ _ _ => trivial⟩

theorem run_verbatim {names : List Text} {cursor after : Cursor} {payload : Payload}
    (run : (verbatim names).payload cursor = .ok payload after) :
    ∃ text, Payload.Grammar.plainText cursor = .ok text after := by
  obtain ⟨text, middle, ran, finished⟩ := Read.bind_eq_ok.mp run
  cases finished
  exact ⟨text, ran⟩

theorem crosses_verbatim (names : List Text) : (verbatim names).Crosses (· ≠ .closing) := by
  intro cursor payload after run
  obtain ⟨text, ran⟩ := run_verbatim run
  exact (Payload.Grammar.crosses_plainText cursor).of_ok ran

end TagRule

namespace Dialect

/-- No rule of the dialect ever moves back. -/
def MovesForward (dialect : Dialect) : Prop :=
  ∀ rule ∈ dialect.rules, rule.MovesForward

/-- Every rule of the dialect keeps payloads as they are written. -/
def OnlyVerbatim (dialect : Dialect) : Prop :=
  ∀ rule ∈ dialect.rules, ∃ names, rule = TagRule.verbatim names

variable {dialect : Dialect}

theorem OnlyVerbatim.crosses (verbatim : dialect.OnlyVerbatim) :
    ∀ rule ∈ dialect.rules, rule.Crosses (· ≠ .closing) := by
  intro rule mem
  obtain ⟨names, rfl⟩ := verbatim rule mem
  exact TagRule.crosses_verbatim names

theorem OnlyVerbatim.movesForward (verbatim : dialect.OnlyVerbatim) : dialect.MovesForward := by
  intro rule mem cursor payload after run
  have crosses := verbatim.crosses rule mem cursor payload after run
  exact ⟨crosses.tokens, crosses.index_le⟩

theorem mem_of_rule? {tag : Text} {rule : TagRule} (found : dialect.rule? tag = some rule) :
    rule ∈ dialect.rules :=
  List.mem_of_find?_eq_some found

/-! ## The parts of a tag -/

variable {cursor after : Cursor}

/-- The name of a tag is that of its token, or that and the name that is glued to it. -/
theorem tagName_eq_ok {name : Text} (run : tagName dialect cursor = .ok name after) :
    (name = cursor.text ∧ after = cursor.step.skipPadding) ∨
      (cursor.step.isAt .name = true ∧ name = cursor.text ++ cursor.step.text ∧
        after = cursor.step.advance) := by
  unfold tagName at run
  rw [Read.run_get_bind, Read.bind_eq_ok] at run
  obtain ⟨_, stepped, moved, run⟩ := run
  cases moved
  rw [Read.run_get_bind] at run
  split at run
  next glued =>
    obtain ⟨_, _, moved, finished⟩ := Read.bind_eq_ok.mp run
    cases moved
    cases finished
    rw [Bool.and_eq_true] at glued
    exact Or.inr ⟨glued.1, rfl, rfl⟩
  next =>
    obtain ⟨_, _, moved, finished⟩ := Read.bind_eq_ok.mp run
    cases moved
    cases finished
    exact Or.inl ⟨rfl, rfl⟩

theorem crosses_tagName {name : Text} (run : tagName dialect cursor = .ok name after) :
    cursor.step.Crosses (fun kind => kind = .name ∨ kind = .padding) after := by
  rcases tagName_eq_ok run with ⟨_, rfl⟩ | ⟨glued, _, rfl⟩
  · exact (Cursor.crosses_skipPadding _).mono fun _ same => Or.inr same
  · refine Cursor.crosses_advance _ (Or.inr rfl) fun kind stands => ?_
    rw [beq_iff_eq.mp glued] at stands
    exact Or.inl (Option.some.inj stands).symm

theorem crosses_genericPayload (tag : Text) (cursor : Cursor) :
    Read.Crosses (· ≠ .closing) (genericPayload dialect tag) cursor := by
  refine Read.crosses_bind (Payload.Grammar.crosses_plainText cursor) fun text _ _ => ?_
  cases dialect.plainOrAnnotation tag text with
  | ok payload => exact Read.crosses_pure _ _
  | error failure => exact Read.crosses_throw _ _

section Crossing

variable {p : Kind → Prop} (unclosed : ∀ kind, kind ≠ .closing → p kind)
  (rules : ∀ rule ∈ dialect.rules, rule.Crosses p)
include unclosed rules

theorem crosses_specificPayload (tag : Text) (cursor : Cursor) :
    Read.Crosses p (specificPayload dialect tag) cursor := by
  unfold specificPayload
  split
  next rule found =>
    refine Read.crosses_bind (Read.crosses_attempt fun payload behind run => ?_) fun _ _ _ => ?_
    · exact rules rule (mem_of_rule? found) cursor payload behind run
    · exact Read.crosses_pure _ _
  next =>
    split
    next kind _ =>
      refine Read.crosses_attempt fun _ _ run => ?_
      exact ((Payload.Grammar.crosses_typedWithWording kind cursor).of_ok run).mono unclosed
    next => exact Read.crosses_pure _ _

theorem crosses_payload (tag : Text) (cursor : Cursor) :
    Read.Crosses p (payload dialect tag) cursor := by
  refine Read.crosses_bind (crosses_specificPayload unclosed rules tag cursor)
    fun result middle _ => ?_
  cases result with
  | some specific => exact Read.crosses_pure _ _
  | none =>
      have generic : Read.Crosses (· ≠ .closing) (genericPayload dialect tag) middle :=
        crosses_genericPayload tag middle
      exact Read.crosses_bind (generic.mono unclosed) fun _ _ _ => Read.crosses_pure _ _

end Crossing

theorem isAtLineEnd_of_genericPayload {tag : Text} {found : Payload}
    (run : genericPayload dialect tag cursor = .ok found after) : after.isAtLineEnd = true := by
  obtain ⟨text, middle, ran, run⟩ := Read.bind_eq_ok.mp run
  have ends := Payload.Grammar.isAtLineEnd_of_plainText ran
  cases kept : dialect.plainOrAnnotation tag text with
  | ok payload =>
      rw [kept] at run
      cases run
      exact ends
  | error failure =>
      rw [kept] at run
      cases run

theorem isAtLineEnd_of_specificPayload (verbatim : dialect.OnlyVerbatim) {tag : Text}
    {found : Payload × Option Text}
    (run : specificPayload dialect tag cursor = .ok (some found) after) :
    after.isAtLineEnd = true := by
  unfold specificPayload at run
  cases claimed : dialect.rule? tag with
  | some rule =>
      obtain ⟨names, rfl⟩ := verbatim rule (mem_of_rule? claimed)
      rw [claimed] at run
      obtain ⟨result, middle, ran, finished⟩ := Read.bind_eq_ok.mp run
      cases result with
      | none => cases finished
      | some payload =>
          cases finished
          obtain ⟨text, read⟩ := TagRule.run_verbatim (Read.attempt_eq_some ran)
          exact Payload.Grammar.isAtLineEnd_of_plainText read
  | none =>
      rw [claimed] at run
      cases typed : Subject.Kind.ofTagName? tag with
      | some kind =>
          rw [typed] at run
          exact Payload.Grammar.isAtLineEnd_of_typedWithWording (Read.attempt_eq_some run)
      | none =>
          rw [typed] at run
          cases run

theorem isAtLineEnd_of_payload (verbatim : dialect.OnlyVerbatim) {tag : Text}
    {found : Payload × Option Text} (run : payload dialect tag cursor = .ok found after) :
    after.isAtLineEnd = true := by
  obtain ⟨result, middle, ran, run⟩ := Read.bind_eq_ok.mp run
  cases result with
  | some specific =>
      cases run
      exact isAtLineEnd_of_specificPayload verbatim ran
  | none =>
      obtain ⟨generic, behind, read, finished⟩ := Read.bind_eq_ok.mp run
      cases finished
      exact isAtLineEnd_of_genericPayload read

/-- Without rules and annotations a payload is typed or plain. -/
theorem payload_plain_eq_ok {tag : Text} {found : Payload × Option Text}
    (run : payload plain tag cursor = .ok found after) :
    (∃ kind subject middle described, Subject.Kind.ofTagName? tag = some kind ∧
        Payload.Grammar.subject kind cursor = .ok subject middle ∧
        Payload.Grammar.description middle = .ok described after ∧
        found = (.typed subject described.1, described.2)) ∨
      ∃ text, Payload.Grammar.plainText cursor = .ok text after ∧ found = (.plain text, none) := by
  obtain ⟨result, middle, ran, run⟩ := Read.bind_eq_ok.mp run
  have claimed : plain.rule? tag = none := rfl
  unfold specificPayload at ran
  rw [claimed] at ran
  cases typed : Subject.Kind.ofTagName? tag with
  | none =>
      rw [typed] at ran
      cases ran
      obtain ⟨generic, behind, ran, finished⟩ := Read.bind_eq_ok.mp run
      cases finished
      obtain ⟨text, last, read, finished⟩ := Read.bind_eq_ok.mp ran
      cases finished
      exact Or.inr ⟨text, read, rfl⟩
  | some kind =>
      rw [typed] at ran
      cases result with
      | some specific =>
          cases run
          obtain ⟨subject, second, read, run⟩ := Read.bind_eq_ok.mp (Read.attempt_eq_some ran)
          obtain ⟨described, _, last, finished⟩ := Read.bind_eq_ok.mp run
          cases finished
          exact Or.inl ⟨kind, subject, second, described, rfl, read, last, rfl⟩
      | none =>
          obtain ⟨generic, behind, read, finished⟩ := Read.bind_eq_ok.mp run
          cases finished
          obtain ⟨text, last, read, finished⟩ := Read.bind_eq_ok.mp read
          cases finished
          rw [Read.attempt_eq_none ran] at read
          exact Or.inr ⟨text, read, rfl⟩

/-! ## Brackets behind a payload -/

theorem closeLength?_le {depth length : Nat} {tokens : List Token}
    (found : closeLength? depth tokens = some length) : length ≤ tokens.length := by
  induction tokens generalizing depth length with
  | nil => simp [closeLength?] at found
  | cons token rest ih =>
      have further {deeper : Nat} (more : (closeLength? deeper rest).map (· + 1) = some length) :
          length ≤ (token :: rest).length := by
        obtain ⟨shorter, closed, rfl⟩ := Option.map_eq_some_iff.mp more
        exact Nat.succ_le_succ (ih closed)
      unfold closeLength? at found
      split at found
      next => exact further found
      next =>
        split at found
        next =>
          cases found
          exact Nat.succ_le_succ (Nat.zero_le _)
        next => exact further found
      next => exact further found

theorem bracketEnd_eq_of_kindAt? {tokens : List Token} {place : Nat}
    (other : kindAt? tokens place ≠ some .roundOpen) : bracketEnd tokens place = place :=
  if_neg other

theorem bracketEnd_le {tokens : List Token} {place : Nat} (within : place ≤ tokens.length) :
    bracketEnd tokens place ≤ tokens.length := by
  unfold bracketEnd
  split
  next =>
    split
    next closed =>
      have short := closeLength?_le closed
      rw [List.length_drop] at short
      omega
    next => exact Nat.sub_le _ _
  next => exact within

/-! ## Tags and prose -/

/-- Where the span of a tag ends whose payload was read up to a cursor. -/
def tagStop (start : Nat) (read : Cursor) : Nat :=
  bracketEnd read.tokens (read.significantEnd (start + 1))

theorem tag_eq_ok {found : Entry} (run : tag dialect cursor = .ok found after) :
    ∃ name behind content read, tagName dialect cursor = .ok name behind ∧
      payload dialect name behind = .ok content read ∧
      found = .tag ⟨name, content.1, some (.between cursor.index (tagStop cursor.index read)),
        content.2⟩ ∧
      after = if tagStop cursor.index read > read.index then
        read.jumpTo (tagStop cursor.index read) else read := by
  unfold tag at run
  rw [Read.run_get_bind, Read.bind_eq_ok] at run
  obtain ⟨name, behind, named, run⟩ := run
  obtain ⟨⟨content, wording⟩, read, taken, run⟩ := Read.bind_eq_ok.mp run
  dsimp only at run
  rw [Read.run_get_bind] at run
  refine ⟨name, behind, (content, wording), read, named, taken, ?_⟩
  change (if tagStop cursor.index read > read.index then _ else _ : Read Entry) read = _ at run
  split at run
  next far =>
    obtain ⟨_, _, moved, finished⟩ := Read.bind_eq_ok.mp run
    cases moved
    cases finished
    exact ⟨rfl, (if_pos far).symm⟩
  next near =>
    cases run
    exact ⟨rfl, (if_neg near).symm⟩

theorem prose_eq_ok {found : Entry} (run : prose cursor = .ok found after) :
    after = cursor.toLineEnd ∧ ∃ span : Span,
      span = .between cursor.index (after.significantEnd cursor.index) ∧
        found = .prose ⟨Text.trim (span.textIn cursor.tokens), some span⟩ := by
  cases run
  refine ⟨rfl, _, rfl, ?_⟩
  rw [← cursor.crosses_toLineEnd.tokens]

/-! ## Entries of any dialect -/

/-- Reading an entry from one cursor to another has put it at a span. -/
structure Stands (before after : Cursor) (found : Entry) (span : Span) : Prop where
  tokens : after.tokens = before.tokens
  span? : found.span? = some span
  start : span.start = before.index
  stop_le : span.stop ≤ after.index
  /-- An entry takes no token only where its line ends at once. -/
  moves : before.index < after.index ∨ after.isAtLineEnd = true

theorem stands_of_prose {found : Entry} (run : prose cursor = .ok found after) :
    ∃ span, Stands cursor after found span := by
  obtain ⟨rfl, span, rfl, rfl⟩ := prose_eq_ok run
  have crosses := cursor.crosses_toLineEnd
  refine ⟨_, crosses.tokens, rfl, rfl, ?_, Or.inr cursor.isAtLineEnd_toLineEnd⟩
  have low := Cursor.significantEnd_le cursor.index cursor.toLineEnd
  have forward := crosses.index_le
  rw [Span.between_stop]
  omega

theorem index_lt_of_tagName {name : Text} (stands : cursor.isAt .tag = true)
    (run : tagName dialect cursor = .ok name after) : cursor.index < after.index := by
  have crosses := crosses_tagName run
  have first := Cursor.index_step (beq_iff_eq.mp stands)
  have later := crosses.index_le
  omega

theorem crosses_of_tagName {name : Text} (stands : cursor.isAt .tag = true)
    (run : tagName dialect cursor = .ok name after) : cursor.Crosses (· ≠ .closing) after := by
  have stepped : cursor.Crosses (· ≠ .closing) cursor.step := by
    refine cursor.crosses_step fun kind here => ?_
    rw [beq_iff_eq.mp stands] at here
    cases here
    decide
  refine stepped.trans ((crosses_tagName run).mono fun kind inside => ?_)
  rcases inside with rfl | rfl <;> decide

theorem stands_of_tag (forward : dialect.MovesForward) {found : Entry}
    (stands : cursor.isAt .tag = true) (run : tag dialect cursor = .ok found after) :
    ∃ span, Stands cursor after found span := by
  obtain ⟨name, behind, content, read, named, taken, rfl, rfl⟩ := tag_eq_ok run
  have rules := fun rule mem => (forward rule mem).crosses
  have crossed := (crosses_payload (fun _ _ => trivial) rules name behind).of_ok taken
  have first := index_lt_of_tagName stands named
  have tokens : read.tokens = cursor.tokens := by
    rw [crossed.tokens, (crosses_tagName named).tokens, Cursor.tokens_step]
  have later := crossed.index_le
  have low := Cursor.significantEnd_le (cursor.index + 1) read
  have within := read.index_le_length
  have stop := bracketEnd_le (Nat.le_trans low within)
  have landed : tagStop cursor.index read ≤ (read.jumpTo (tagStop cursor.index read)).index :=
    Cursor.index_placed_ge stop
  refine ⟨_, ?_, rfl, rfl, ?_, Or.inl ?_⟩
  · split
    next => rw [Cursor.tokens_jumpTo, tokens]
    next => exact tokens
  · rw [Span.between_stop]
    split <;> omega
  · split <;> omega

/-- An entry is read as a tag in front of a marker, and as prose anywhere else. -/
theorem entry_eq_ok {item : Entry} (run : entry dialect cursor = .ok item after) :
    cursor.isAt .tag = true ∧ tag dialect cursor = .ok item after ∨
      ¬cursor.isAt .tag = true ∧ prose cursor = .ok item after := by
  rw [entry, Read.run_get_bind] at run
  split at run
  next marked => exact .inl ⟨marked, run⟩
  next unmarked => exact .inr ⟨unmarked, run⟩

/-- Every entry of a dialect that never moves back stands where its reader was. -/
theorem stands_of_entry (forward : dialect.MovesForward) {found : Entry}
    (run : entry dialect cursor = .ok found after) : ∃ span, Stands cursor after found span := by
  rcases entry_eq_ok run with ⟨stands, run⟩ | ⟨-, run⟩
  · exact stands_of_tag forward stands run
  · exact stands_of_prose run

/-! ## Entries of a dialect that keeps payloads as written -/

/-- An entry takes all of its line but the padding at the end. -/
structure Fills (before after : Cursor) (found : Entry) (span : Span) : Prop where
  span? : found.span? = some span
  start : span.start = before.index
  crosses : before.Crosses (· ≠ .closing) after
  ends : after.isAtLineEnd = true
  padded : Padded before.tokens span.stop after.index

theorem fills_of_prose {found : Entry} (run : prose cursor = .ok found after) :
    ∃ span, Fills cursor after found span := by
  obtain ⟨rfl, span, rfl, rfl⟩ := prose_eq_ok run
  have crosses := cursor.crosses_toLineEnd
  refine ⟨_, rfl, rfl, crosses.mono fun _ inside => inside.2, cursor.isAtLineEnd_toLineEnd, ?_⟩
  have behind := Cursor.le_significantEnd crosses.index_le
  have padded := Cursor.padded_significantEnd cursor.index cursor.toLineEnd
  rw [Span.between_stop, Nat.max_eq_right behind]
  rwa [crosses.tokens] at padded

/-- At the end of a line no bracket opens behind a payload. -/
theorem tagStop_eq {start : Nat} {read : Cursor} (ends : read.isAtLineEnd = true) :
    tagStop start read = read.significantEnd (start + 1) := by
  refine bracketEnd_eq_of_kindAt? fun opens => ?_
  have padded := Cursor.padded_significantEnd (start + 1) read
  have here := padded.eq_of_kindAt? (by rw [opens]; decide)
  rw [← here, ← Cursor.kind?_eq] at opens
  rcases Cursor.isAtLineEnd_iff.mp ends _ opens with same | same <;> cases same

/-- A tag whose payload ends with its line is its name and its payload. -/
theorem run_tag_of_payload {name : Text} {behind : Cursor} {content : Payload × Option Text}
    (named : tagName dialect cursor = .ok name behind)
    (taken : payload dialect name behind = .ok content after) (ends : after.isAtLineEnd = true) :
    ∃ span, tag dialect cursor = .ok (.tag ⟨name, content.1, some span, content.2⟩) after := by
  have near : ¬ tagStop cursor.index after > after.index := by
    rw [tagStop_eq ends]
    exact Nat.not_lt.mpr (Cursor.significantEnd_le _ _)
  refine ⟨.between cursor.index (tagStop cursor.index after), ?_⟩
  rw [tag, Read.run_get_bind, Read.run_bind_of_ok named, Read.run_bind_of_ok taken]
  dsimp only
  rw [Read.run_get_bind]
  exact congrFun (if_neg near) after

theorem fills_of_tag (verbatim : dialect.OnlyVerbatim) {found : Entry}
    (stands : cursor.isAt .tag = true) (run : tag dialect cursor = .ok found after) :
    ∃ span, Fills cursor after found span := by
  obtain ⟨name, behind, content, read, named, taken, rfl, moved⟩ := tag_eq_ok run
  have ends := isAtLineEnd_of_payload verbatim taken
  have crossed := (crosses_payload (fun _ same => same) verbatim.crosses name behind).of_ok taken
  have first := index_lt_of_tagName stands named
  have whole := (crosses_of_tagName stands named).trans crossed
  rw [tagStop_eq ends] at moved ⊢
  have low := Cursor.significantEnd_le (cursor.index + 1) read
  rw [if_neg (Nat.not_lt.mpr low)] at moved
  subst moved
  refine ⟨_, rfl, rfl, whole, ends, ?_⟩
  have proper := Nat.lt_of_lt_of_le first crossed.index_le
  have high : cursor.index + 1 ≤ after.significantEnd (cursor.index + 1) :=
    Cursor.le_significantEnd (Nat.succ_le_of_lt proper)
  have padded := Cursor.padded_significantEnd (cursor.index + 1) after
  rw [Span.between_stop, Nat.max_eq_right (by omega)]
  rwa [whole.tokens] at padded

theorem fills_of_entry (verbatim : dialect.OnlyVerbatim) {found : Entry}
    (run : entry dialect cursor = .ok found after) : ∃ span, Fills cursor after found span := by
  rcases entry_eq_ok run with ⟨stands, run⟩ | ⟨-, run⟩
  · exact fills_of_tag verbatim stands run
  · exact fills_of_prose run

/-! ## Entries one after another -/

/-- What one round of the loop over the lines takes, and what it leaves to the next one. -/
inductive Round (dialect : Dialect) (bound : Nat) (cursor : Cursor) : List Entry → Cursor → Prop
  | closed (closes : cursor.isAtClose = true) : Round dialect bound cursor [] cursor
  | ended (broken : cursor.isAt .lineBreak = true) (closes : cursor.advance.isAtClose = true) :
      Round dialect bound cursor [] cursor.advance
  | line {item : Entry} {items : List Entry} {middle after : Cursor} (broken : cursor.isAt .lineBreak = true)
      (opens : cursor.advance.isAtClose = false) (taken : entry dialect cursor.advance = .ok item middle)
      (ran : furtherEntries dialect bound middle = .ok items after) : Round dialect bound cursor (item :: items) after
  | rest {item : Entry} {items : List Entry} {middle after : Cursor} (within : cursor.isAtLineEnd = false)
      (taken : prose cursor = .ok item middle) (ran : furtherEntries dialect bound middle = .ok items after) :
      Round dialect bound cursor (item :: items) after

theorem round_of_furtherEntries {bound : Nat} {items : List Entry}
    (run : furtherEntries dialect (bound + 1) cursor = .ok items after) :
    Round dialect bound cursor items after := by
  unfold furtherEntries at run
  rw [Read.run_get_bind] at run
  split at run
  next closes =>
    cases run
    exact .closed closes
  next goesOn =>
    rw [Read.run_bind_of_ok (Read.run_accept .lineBreak cursor)] at run
    cases broken : cursor.isAt .lineBreak with
    | true =>
        rw [broken, Cursor.accept_of_isAt broken, if_pos rfl, Read.run_get_bind] at run
        split at run
        next closes =>
          cases run
          exact .ended broken closes
        next opens =>
          obtain ⟨item, middle, taken, run⟩ := Read.bind_eq_ok.mp run
          obtain ⟨items, last, ran, finished⟩ := Read.bind_eq_ok.mp run
          cases finished
          exact .line broken (Bool.eq_false_iff.mpr opens) taken ran
    | false =>
        rw [broken, Cursor.accept_of_not_isAt broken, if_neg Bool.false_ne_true] at run
        obtain ⟨item, middle, taken, run⟩ := Read.bind_eq_ok.mp run
        obtain ⟨items, last, ran, finished⟩ := Read.bind_eq_ok.mp run
        cases finished
        refine .rest ?_ taken ran
        rw [Cursor.isAtLineEnd_eq, broken, Bool.or_false, Bool.eq_false_iff]
        exact goesOn

/-- There are no entries, or the first one is taken and the loop takes the others. -/
theorem entries_eq_ok {items : List Entry} (run : entries dialect cursor = .ok items after) :
    cursor.isAtClose = true ∧ items = [] ∧ after = cursor ∨
      cursor.isAtClose = false ∧ ∃ first others middle, entry dialect cursor = .ok first middle ∧
        furtherEntries dialect (middle.rest.length + 1) middle = .ok others after ∧
        items = first :: others := by
  unfold entries at run
  rw [Read.run_get_bind] at run
  split at run
  next closes =>
    cases run
    exact .inl ⟨closes, rfl, rfl⟩
  next opens =>
    obtain ⟨first, middle, taken, run⟩ := Read.bind_eq_ok.mp run
    rw [Read.run_get_bind] at run
    obtain ⟨others, last, ran, finished⟩ := Read.bind_eq_ok.mp run
    cases finished
    exact .inr ⟨Bool.eq_false_iff.mpr opens, first, others, middle, taken, ran, rfl⟩

end Dialect

end DocComment
