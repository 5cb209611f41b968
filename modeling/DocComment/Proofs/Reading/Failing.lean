import DocComment.Proofs.Reading.Bounds
import DocComment.Proofs.Reading.Total
import DocComment.Proofs.Reading.Trail

/-!
# Where reading fails

A rule, a grammar or a call that does not fit makes a payload plain, from the
token behind the name of its tag on (`Unfit.run_payload`).  Only two failures are
left: a text that does not open (`read_of_not_opens`), and a tag that the resolver
claims without naming a class (`fails_entry_iff`).  The loop over the lines carries
a failure of an entry out unchanged (`fails_furtherEntries_iff`).
-/

namespace DocComment

open Token

namespace Read

variable {α β : Type}

/-- The reader fails at the cursor. -/
def Fails (read : Read α) (cursor : Cursor) (failure : Failure) : Prop :=
  ∃ after, read cursor = .error failure after

theorem Fails.congr {first second : Read α} {here there : Cursor} {failure : Failure}
    (same : first here = second there) : Fails first here failure ↔ Fails second there failure := by
  unfold Fails
  rw [same]

theorem not_fails_of_ok {read : Read α} {cursor after : Cursor} {value : α} {failure : Failure}
    (run : read cursor = .ok value after) : ¬ Fails read cursor failure := by
  rintro ⟨_, failed⟩
  cases run.symm.trans failed

theorem not_fails_of_succeeds {read : Read α} {cursor : Cursor} {failure : Failure}
    (succeeds : Succeeds read cursor) : ¬ Fails read cursor failure := by
  obtain ⟨_, _, run⟩ := succeeds
  exact not_fails_of_ok run

variable {read : Read α} {next : α → Read β} {cursor : Cursor} {failure : Failure}

/-- A sequence fails where its first part does, or its second part behind the first. -/
theorem fails_bind_iff :
    Fails (read >>= next) cursor failure ↔
      Fails read cursor failure ∨
        ∃ value middle, read cursor = .ok value middle ∧ Fails (next value) middle failure := by
  cases run : read cursor with
  | ok value middle =>
      rw [Fails.congr (run_bind_of_ok run)]
      constructor
      · intro failed
        exact Or.inr ⟨value, middle, rfl, failed⟩
      · rintro (failed | ⟨_, _, same, failed⟩)
        · exact absurd failed (not_fails_of_ok run)
        · cases same
          exact failed
  | error thrown middle =>
      have whole : (read >>= next) cursor = .error thrown middle := run_bind_of_error run
      constructor
      · rintro ⟨_, failed⟩
        cases whole.symm.trans failed
        exact Or.inl ⟨middle, run⟩
      · rintro (⟨_, failed⟩ | ⟨_, _, same, _⟩)
        · cases run.symm.trans failed
          exact ⟨middle, whole⟩
        · cases same

/-- Behind a part that succeeds a sequence fails where the rest of it does. -/
theorem fails_bind_of_ok {value : α} {middle : Cursor} (run : read cursor = .ok value middle) :
    Fails (read >>= next) cursor failure ↔ Fails (next value) middle failure :=
  Fails.congr (run_bind_of_ok run)

/-- In front of a part that never fails only the first part matters. -/
theorem fails_bind_of_succeeds (succeeds : ∀ value after, Succeeds (next value) after) :
    Fails (read >>= next) cursor failure ↔ Fails read cursor failure := by
  rw [fails_bind_iff]
  constructor
  · rintro (failed | ⟨value, middle, _, failed⟩)
    · exact failed
    · exact absurd failed (not_fails_of_succeeds (succeeds value middle))
  · exact Or.inl

end Read

namespace Dialect

open Read

variable {dialect : Dialect} {cursor : Cursor} {tag : Text} {failure : Failure}

/-! ## Payloads -/

/-- What there is for a tag, a rule or else a grammar, does not apply at the cursor. -/
structure Unfit (dialect : Dialect) (tag : Text) (cursor : Cursor) : Prop where
  rule : ∀ rule, dialect.rule? tag = some rule → ∃ failure, Fails rule.payload cursor failure
  grammar : dialect.rule? tag = none → ∀ kind, Subject.Kind.ofTagName? tag = some kind →
    ∃ failure, Fails (Payload.Grammar.typedWithWording kind) cursor failure

theorem attempt_of_fails {α : Type} {read : Read α}
    (failed : ∃ failure, Fails read cursor failure) :
    attempt read cursor = .ok none cursor := by
  obtain ⟨failure, after, run⟩ := failed
  rw [attempt, run]

theorem fails_of_attempt {α : Type} {read : Read α} {after : Cursor}
    (run : attempt read cursor = .ok none after) :
    ∃ failure, Fails read cursor failure := by
  unfold attempt at run
  cases ran : read cursor with
  | ok value behind =>
      rw [ran] at run
      cases run
  | error failure behind => exact ⟨failure, behind, ran⟩

/-- The cursor is back behind the name when nothing fits. -/
theorem Unfit.run_specificPayload (unfit : dialect.Unfit tag cursor) :
    specificPayload dialect tag cursor = .ok none cursor := by
  unfold specificPayload
  cases claimed : dialect.rule? tag with
  | some rule => exact run_bind_of_ok (attempt_of_fails (unfit.rule rule claimed))
  | none =>
      cases typed : Subject.Kind.ofTagName? tag with
      | some kind => exact attempt_of_fails (unfit.grammar claimed kind typed)
      | none => rfl

theorem unfit_of_specificPayload {after : Cursor}
    (run : specificPayload dialect tag cursor = .ok none after) :
    dialect.Unfit tag cursor := by
  unfold specificPayload at run
  constructor
  case rule =>
    intro rule claimed
    rw [claimed] at run
    obtain ⟨result, middle, ran, finished⟩ := bind_eq_ok.mp run
    cases result with
    | none => exact fails_of_attempt ran
    | some payload => cases finished
  case grammar =>
    intro claimed kind typed
    rw [claimed, typed] at run
    exact fails_of_attempt run

/-- The text that is a plain payload behind a name. -/
def written (cursor : Cursor) : Text :=
  Text.trimEnd (Payload.Grammar.undecorated false
    (cursor.rest.take (Payload.Grammar.plainLength 0 cursor.rest)))

/-- The end of the plain payload behind a name. -/
def behindWritten (cursor : Cursor) : Cursor :=
  cursor.forward (Payload.Grammar.plainLength 0 cursor.rest)

/-- A payload that nothing fits is read as a plain one from behind the name of its tag on. -/
theorem Unfit.run_payload (unfit : dialect.Unfit tag cursor) :
    payload dialect tag cursor =
      match dialect.plainOrAnnotation tag (written cursor) with
      | .ok value => .ok (value, none) (behindWritten cursor)
      | .error failure => .error failure (behindWritten cursor) := by
  have plain : genericPayload dialect tag cursor =
      (match dialect.plainOrAnnotation tag (written cursor) with
        | .ok payload => return payload
        | .error failure => throw failure : Read Payload) (behindWritten cursor) :=
    run_bind_of_ok (Payload.Grammar.plainText_eq cursor)
  rw [payload, run_bind_of_ok unfit.run_specificPayload]
  dsimp only
  cases value : dialect.plainOrAnnotation tag (written cursor) with
  | ok value' =>
      rw [value] at plain
      exact run_bind_of_ok plain
  | error failure =>
      rw [value] at plain
      exact run_bind_of_error plain

/-- A call that is malformed makes a payload plain, as a text without a call does. -/
theorem plainOrAnnotation_of_malformed {name text : Text}
    (claimed : dialect.naming.resolve tag = some name) (named : name.all (· == '\\') = false)
    (malformed : ∀ call, Annotation.ofPayload dialect.naming name text ≠ .ok (some call)) :
    dialect.plainOrAnnotation tag text = .ok (.plain text) := by
  unfold plainOrAnnotation
  rw [claimed]
  dsimp only
  rw [named, if_neg Bool.false_ne_true]
  split
  next call read => exact absurd read (malformed call)
  next => rfl
  next => rfl

/-- The resolver claims the tag and names no class for it. -/
structure Nameless (dialect : Dialect) (tag name : Text) : Prop where
  claimed : dialect.naming.resolve tag = some name
  nameless : name.all (· == '\\') = true

theorem plainOrAnnotation_eq_error_iff {text : Text} :
    dialect.plainOrAnnotation tag text = .error failure ↔
      ∃ name, dialect.Nameless tag name ∧ failure = .unresolved tag name := by
  unfold plainOrAnnotation
  cases claimed : dialect.naming.resolve tag with
  | none =>
      constructor
      · exact fun same => nomatch same
      · rintro ⟨name, nameless, -⟩
        cases claimed.symm.trans nameless.claimed
  | some name =>
      dsimp only
      cases all : name.all (· == '\\') with
      | true =>
          rw [if_pos rfl]
          constructor
          · intro same
            cases same
            exact ⟨name, ⟨claimed, all⟩, rfl⟩
          · rintro ⟨_, nameless, rfl⟩
            cases claimed.symm.trans nameless.claimed
            rfl
      | false =>
          rw [if_neg Bool.false_ne_true]
          constructor
          · intro same
            split at same <;> cases same
          · rintro ⟨_, nameless, -⟩
            cases claimed.symm.trans nameless.claimed
            cases all.symm.trans nameless.nameless

theorem fails_payload_iff :
    Fails (payload dialect tag) cursor failure ↔
      dialect.Unfit tag cursor ∧ ∃ name, dialect.Nameless tag name ∧
      failure = .unresolved tag name := by
  rw [← @plainOrAnnotation_eq_error_iff _ _ _ (written cursor)]
  constructor
  · intro failed
    obtain ⟨result, middle, run⟩ := @succeeds_specificPayload dialect tag cursor
    cases result with
    | some specific =>
        have ran : payload dialect tag cursor = .ok specific middle := run_bind_of_ok run
        exact absurd failed (not_fails_of_ok ran)
    | none =>
        have unfit := unfit_of_specificPayload run
        refine ⟨unfit, ?_⟩
        rw [Fails, unfit.run_payload] at failed
        obtain ⟨after, failed⟩ := failed
        split at failed
        next => cases failed
        next given =>
          cases failed
          exact given
  · rintro ⟨unfit, given⟩
    refine ⟨behindWritten cursor, ?_⟩
    rw [unfit.run_payload, given]

/-! ## Entries -/

/-- A tag stands here that nothing fits and for which the resolver names no class. -/
structure Unresolved (dialect : Dialect) (place : Cursor) (tag name : Text) : Prop where
  marked : place.isAt .tag = true
  unfit : ∃ behind, tagName dialect place = .ok tag behind ∧ dialect.Unfit tag behind
  nameless : dialect.Nameless tag name

theorem fails_tag_iff :
    Fails (Dialect.tag dialect) cursor failure ↔
      ∃ tag behind, tagName dialect cursor = .ok tag behind ∧
        Fails (payload dialect tag) behind failure := by
  obtain ⟨tag, behind, named⟩ := @succeeds_tagName dialect cursor
  have rest (content : Payload × Option Text) (after : Cursor) : Succeeds (do
      let cursor' ← get
      let stop := bracketEnd cursor'.tokens (cursor'.significantEnd (cursor.index + 1))
      if stop > cursor'.index then Read.move (Cursor.jumpTo stop)
      return .tag ⟨tag, content.1, some (.between cursor.index stop), content.2⟩ :
      Read Entry) after := by
    apply succeeds_get_bind
    dsimp only
    split
    next => exact succeeds_bind (succeeds_move _ _) fun _ _ => succeeds_pure _ _
    next => exact succeeds_pure _ _
  have whole : Fails (Dialect.tag dialect) cursor failure ↔
      Fails (payload dialect tag) behind failure := by
    rw [Dialect.tag, Fails.congr (run_get_bind _ _), fails_bind_of_ok named]
    exact fails_bind_of_succeeds rest
  rw [whole]
  constructor
  · exact fun failed => ⟨tag, behind, named, failed⟩
  · rintro ⟨_, _, same, failed⟩
    cases named.symm.trans same
    exact failed

/-- An entry fails only where a tag is unresolved. -/
theorem fails_entry_iff :
    Fails (entry dialect) cursor failure ↔
      ∃ tag name, dialect.Unresolved cursor tag name ∧ failure = .unresolved tag name := by
  rw [entry, Fails.congr (run_get_bind _ _)]
  cases marked : cursor.isAt .tag with
  | false =>
      rw [if_neg Bool.false_ne_true]
      constructor
      · exact fun failed => absurd failed (not_fails_of_succeeds (succeeds_prose cursor))
      · rintro ⟨_, _, unresolved, -⟩
        cases marked.symm.trans unresolved.marked
  | true =>
      rw [if_pos rfl, fails_tag_iff]
      constructor
      · rintro ⟨tag, behind, named, failed⟩
        obtain ⟨unfit, name, nameless, rfl⟩ := fails_payload_iff.mp failed
        exact ⟨tag, name, ⟨marked, ⟨behind, named, unfit⟩, nameless⟩, rfl⟩
      · rintro ⟨tag, name, ⟨-, ⟨behind, named, unfit⟩, nameless⟩, rfl⟩
        exact ⟨tag, behind, named, fails_payload_iff.mpr ⟨unfit, name, nameless, rfl⟩⟩

/-- A tag that nothing fits is an entry with the plain payload behind its name. -/
theorem Unfit.exists_entry {place behind : Cursor} {value : Payload}
    (unfit : dialect.Unfit tag behind)
    (marked : place.isAt .tag = true) (named : tagName dialect place = .ok tag behind)
    (given : dialect.plainOrAnnotation tag (written behind) = .ok value) :
    ∃ span, entry dialect place =
      .ok (.tag ⟨tag, value, some span, none⟩) (behindWritten behind) := by
  have taken : payload dialect tag behind = .ok (value, none) (behindWritten behind) := by
    rw [unfit.run_payload, given]
  have ends := Payload.Grammar.isAtLineEnd_of_plainText (Payload.Grammar.plainText_eq behind)
  obtain ⟨span, run⟩ := run_tag_of_payload named taken ends
  refine ⟨span, ?_⟩
  rw [entry, run_get_bind, if_pos marked]
  exact run

/-! ## Lines -/

/-- Where the loop over the lines comes to an entry, from where it is on. -/
inductive ComesTo (dialect : Dialect) : Cursor → Cursor → Prop
  | here {cursor : Cursor} (broken : cursor.isAt .lineBreak = true) (opens : cursor.advance.isAtClose = false) :
      ComesTo dialect cursor cursor.advance
  | line {cursor after place : Cursor} {item : Entry} (broken : cursor.isAt .lineBreak = true)
      (opens : cursor.advance.isAtClose = false) (run : entry dialect cursor.advance = .ok item after)
      (later : ComesTo dialect after place) : ComesTo dialect cursor place
  | rest {cursor after place : Cursor} {item : Entry} (within : cursor.isAtLineEnd = false)
      (run : prose cursor = .ok item after) (later : ComesTo dialect after place) : ComesTo dialect cursor place

namespace ComesTo

variable {place after : Cursor} {item : Entry}

theorem isAtClose_eq_false (comes : dialect.ComesTo cursor place) : cursor.isAtClose = false := by
  cases comes with
  | here broken | line broken => exact isAtClose_of_broken broken
  | rest within =>
      rw [Cursor.isAtLineEnd_eq, Bool.or_eq_false_iff] at within
      exact within.1

/-- At a line break the loop comes to the entry of the line, and to those behind it. -/
theorem of_broken (broken : cursor.isAt .lineBreak = true) (comes : dialect.ComesTo cursor place) :
    cursor.advance.isAtClose = false ∧ (place = cursor.advance ∨
      ∃ item after, entry dialect cursor.advance = .ok item after ∧
        dialect.ComesTo after place) := by
  cases comes with
  | here _ opens => exact ⟨opens, .inl rfl⟩
  | line _ opens run later => exact ⟨opens, .inr ⟨_, _, run, later⟩⟩
  | rest within =>
      rw [Cursor.isAtLineEnd_eq, broken, Bool.or_true] at within
      cases within

/-- Within a line the loop comes to the entries behind its rest. -/
theorem of_prose (within : cursor.isAt .lineBreak = false) (taken : prose cursor = .ok item after)
    (comes : dialect.ComesTo cursor place) : dialect.ComesTo after place := by
  cases comes with
  | here broken | line broken => cases within.symm.trans broken
  | rest _ run later =>
      cases taken.symm.trans run
      exact later

end ComesTo

/-- Where an entry of a text starts. -/
inductive StartsAt (dialect : Dialect) (text : Text) : Cursor → Prop
  | first (opens : (firstPlace text).isAtClose = false) : StartsAt dialect text (firstPlace text)
  | later {after place : Cursor} {item : Entry} (opens : (firstPlace text).isAtClose = false)
      (run : entry dialect (firstPlace text) = .ok item after) (comes : ComesTo dialect after place) :
      StartsAt dialect text place

theorem not_fails_nil : ¬ Fails (pure [] : Read (List Entry)) cursor failure :=
  not_fails_of_succeeds (succeeds_pure _ _)

theorem fails_cons_iff {bound : Nat} (next : Entry) :
    Fails (do return next :: (← furtherEntries dialect bound)) cursor failure ↔
      Fails (furtherEntries dialect bound) cursor failure :=
  fails_bind_of_succeeds fun _ _ => succeeds_pure _ _

/-- The loop over the lines fails where an entry fails that it comes to. -/
theorem fails_furtherEntries_iff (forward : dialect.MovesForward) {bound : Nat}
    (enough : remaining cursor < bound) :
    Fails (furtherEntries dialect bound) cursor failure ↔
      ∃ place, dialect.ComesTo cursor place ∧ Fails (entry dialect) place failure := by
  induction bound generalizing cursor with
  | zero => exact absurd enough (Nat.not_lt_zero _)
  | succ bound ih =>
      have later {after : Cursor} (next : Entry) (shorter : remaining after < remaining cursor) :
          Fails (do return next :: (← furtherEntries dialect bound)) after failure ↔
            ∃ place, dialect.ComesTo after place ∧ Fails (entry dialect) place failure :=
        (fails_cons_iff next).trans (ih (by omega))
      rw [furtherEntries, Fails.congr (run_get_bind _ _)]
      cases closes : cursor.isAtClose with
      | true =>
          rw [if_pos rfl]
          refine ⟨fun failed => absurd failed not_fails_nil, ?_⟩
          rintro ⟨place, comes, -⟩
          cases closes.symm.trans comes.isAtClose_eq_false
      | false =>
          rw [if_neg Bool.false_ne_true]
          cases broken : cursor.isAt .lineBreak with
          | true =>
              have accepted := run_accept .lineBreak cursor
              rw [broken, Cursor.accept_of_isAt broken] at accepted
              rw [fails_bind_of_ok accepted, if_pos rfl, Fails.congr (run_get_bind _ _)]
              cases opens : cursor.advance.isAtClose with
              | true =>
                  rw [if_pos rfl]
                  refine ⟨fun failed => absurd failed not_fails_nil, ?_⟩
                  rintro ⟨place, comes, -⟩
                  cases opens.symm.trans (comes.of_broken broken).1
              | false =>
                  rw [if_neg Bool.false_ne_true, fails_bind_iff]
                  constructor
                  · rintro (failed | ⟨next, middle, taken, failed⟩)
                    · exact ⟨cursor.advance, .here broken opens, failed⟩
                    · obtain ⟨place, comes, last⟩ :=
                        (later next (remaining_lt_of_entry forward broken taken)).mp failed
                      exact ⟨place, .line broken opens taken comes, last⟩
                  · rintro ⟨place, comes, failed⟩
                    rcases (comes.of_broken broken).2 with rfl | ⟨next, middle, taken, comes⟩
                    · exact .inl failed
                    · exact .inr ⟨next, middle, taken,
                        (later next (remaining_lt_of_entry forward broken taken)).mpr
                        ⟨place, comes, failed⟩⟩
          | false =>
              have within : cursor.isAtLineEnd = false := by
                rw [Cursor.isAtLineEnd_eq, closes, broken]; rfl
              obtain ⟨next, middle, taken⟩ := succeeds_prose cursor
              rw [fails_bind_of_ok (run_accept_of_not_isAt broken), if_neg Bool.false_ne_true,
                fails_bind_of_ok taken, later next (remaining_lt_of_prose within taken)]
              constructor
              · rintro ⟨place, comes, failed⟩
                exact ⟨place, .rest within taken comes, failed⟩
              · rintro ⟨place, comes, failed⟩
                exact ⟨place, comes.of_prose broken taken, failed⟩

/-! ## Whole comments -/

variable {text : Text}

theorem fails_entries_iff (forward : dialect.MovesForward) :
    Fails (entries dialect) (firstPlace text) failure ↔
      ∃ place, dialect.StartsAt text place ∧ Fails (entry dialect) place failure := by
  rw [entries, Fails.congr (run_get_bind _ _)]
  cases opens : (firstPlace text).isAtClose with
  | true =>
      rw [if_pos rfl]
      constructor
      · exact fun failed => absurd failed (not_fails_of_succeeds (succeeds_pure _ _))
      · rintro ⟨place, starts, -⟩
        cases starts with
        | first goesOn => cases opens.symm.trans goesOn
        | later goesOn _ _ => cases opens.symm.trans goesOn
  | false =>
      have further (next : Entry) (middle : Cursor) : Fails (do
            let rest ← furtherEntries dialect ((← get).rest.length + 1)
            return next :: rest : Read (List Entry)) middle failure ↔
          ∃ place, dialect.ComesTo middle place ∧ Fails (entry dialect) place failure := by
        rw [Fails.congr (run_get_bind _ _), fails_cons_iff]
        exact fails_furtherEntries_iff forward (Nat.lt_succ_self _)
      rw [if_neg Bool.false_ne_true, fails_bind_iff]
      constructor
      · rintro (failed | ⟨next, middle, taken, failed⟩)
        · exact ⟨_, .first opens, failed⟩
        · obtain ⟨place, comes, last⟩ := (further next middle).mp failed
          exact ⟨place, .later opens taken comes, last⟩
      · rintro ⟨place, starts, failed⟩
        cases starts with
        | first => exact Or.inl failed
        | @later middle _ next _ taken comes =>
            exact Or.inr ⟨next, middle, taken, (further next middle).mpr ⟨place, comes, failed⟩⟩

theorem opens_iff : text.Opens ↔ (Cursor.ofTokens (scan text)).kind? = some .opening := by
  refine ⟨kind?_ofTokens_of_opens, fun opens => ?_⟩
  rw [Cursor.kind?_eq, Cursor.ofTokens, Cursor.tokens_placed] at opens
  exact opens_of_kindAt? (Cursor.padded_ofTokens (scan text)) opens

theorem read_eq_error_iff :
    dialect.read text = .error failure ↔
      Fails (comment dialect) (Cursor.ofTokens (scan text)) failure := by
  unfold Dialect.read Read.valueAt Fails
  dsimp only
  cases comment dialect (Cursor.ofTokens (scan text)) with
  | ok found after => exact ⟨fun same => (nomatch same), fun ⟨_, same⟩ => (nomatch same)⟩
  | error thrown after =>
      constructor
      · intro same
        cases same
        exact ⟨after, rfl⟩
      · rintro ⟨_, same⟩
        cases same
        rfl

/-- A text that does not open fails with what stands there in place of the opening marker. -/
theorem read_of_not_opens (opens : ¬ text.Opens) :
    ∃ found place, dialect.read text = .error (.unexpected .opening found place) := by
  have other : (Cursor.ofTokens (scan text)).kind? ≠ some .opening :=
    fun stands => opens (opens_iff.mpr stands)
  have failed : ∃ found place, Fails (expect .opening) (Cursor.ofTokens (scan text))
      (.unexpected .opening found place) := by
    unfold expect
    simp only [Fails.congr (run_get_bind _ _)]
    cases stands : (Cursor.ofTokens (scan text)).rest with
    | nil => exact ⟨_, _, _, rfl⟩
    | cons token rest =>
        have kind : token.kind ≠ .opening := by
          rintro same
          rw [Cursor.kind?, stands] at other
          exact other (congrArg some same)
        dsimp only
        rw [if_neg kind]
        exact ⟨_, _, _, rfl⟩
  obtain ⟨found, place, failed⟩ := failed
  exact ⟨found, place, read_eq_error_iff.mpr (fails_bind_iff.mpr (Or.inl failed))⟩

/-- A text that opens fails where an entry of it does. -/
theorem read_eq_error_iff_of_opens (forward : dialect.MovesForward) (opens : text.Opens) :
    dialect.read text = .error failure ↔
      ∃ place, dialect.StartsAt text place ∧ Fails (entry dialect) place failure := by
  obtain ⟨token, middle, expected⟩ := succeeds_expect (kind?_ofTokens_of_opens opens)
  obtain ⟨-, -, rfl⟩ := expect_eq_ok expected
  rw [read_eq_error_iff, comment, fails_bind_of_ok expected, fails_bind_of_ok (run_accept _ _),
    ← fails_entries_iff forward]
  exact fails_bind_of_succeeds fun _ _ => succeeds_bind (succeeds_accept _ _) fun _ _ =>
    succeeds_pure _ _

/--
Reading comes to an end without running into a bound.  A text that does not open
fails for its opening marker; one that opens fails just where an entry of it is an
unresolved tag.  A tag that no rule and no grammar fits has the plain payload that
is read from behind its name on, or the annotation that this text is, and a
malformed call is a plain payload.
-/
theorem fails_only_where_unresolved (forward : dialect.MovesForward) (text : Text) :
    dialect.Unbounded ∧
      ((∃ found place, dialect.read text = .error (.unexpected .opening found place)) ↔ ¬ text.Opens) ∧
      (text.Opens → ∀ failure, dialect.read text = .error failure ↔
        ∃ place tag name, dialect.StartsAt text place ∧ dialect.Unresolved place tag name ∧
          failure = .unresolved tag name) ∧
      (∀ place tag behind value, place.isAt .tag = true → tagName dialect place = .ok tag behind →
        dialect.Unfit tag behind → dialect.plainOrAnnotation tag (written behind) = .ok value →
          ∃ span, entry dialect place = .ok (.tag ⟨tag, value, some span, none⟩) (behindWritten behind)) ∧
      ∀ tag name text, dialect.naming.resolve tag = some name → ¬ dialect.Nameless tag name →
        (∀ call, Annotation.ofPayload dialect.naming name text ≠ .ok (some call)) →
          dialect.plainOrAnnotation tag text = .ok (.plain text) := by
  have opened (opens : text.Opens) (failure : Failure) : dialect.read text = .error failure ↔
      ∃ place tag name, dialect.StartsAt text place ∧ dialect.Unresolved place tag name ∧
        failure = .unresolved tag name := by
    rw [read_eq_error_iff_of_opens forward opens]
    constructor
    · rintro ⟨place, starts, failed⟩
      obtain ⟨tag, name, unresolved, same⟩ := fails_entry_iff.mp failed
      exact ⟨place, tag, name, starts, unresolved, same⟩
    · rintro ⟨place, tag, name, starts, unresolved, same⟩
      exact ⟨place, starts, fails_entry_iff.mpr ⟨tag, name, unresolved, same⟩⟩
  refine ⟨unbounded_of_movesForward forward, ⟨?_, read_of_not_opens⟩, opened, ?_, ?_⟩
  · rintro ⟨found, place, failed⟩ opens
    obtain ⟨_, _, _, _, _, same⟩ := (opened opens _).mp failed
    cases same
  · intro place tag behind value marked named unfit given
    exact unfit.exists_entry marked named given
  · intro tag name text claimed named malformed
    refine plainOrAnnotation_of_malformed claimed ?_ malformed
    exact Bool.eq_false_iff.mpr fun all => named ⟨claimed, all⟩

/-- A rule that fails within its line, and behind it a tag of no class: the second
one is what fails. -/
theorem fails_only_where_unresolved_behind_rule :
    let rule : TagRule := ⟨fun tag => tag == "@x".toList, do let _ ← Read.takeText; Read.failExpecting .comma⟩
    let resolver : Resolver := fun _ tag => if tag == "@y".toList then some ['\\'] else none
    let dialect : Dialect := ⟨[rule], ⟨resolver, ⟨none, []⟩, .empty⟩⟩
    let text : Text := "/**\n * @x a b\n * @y\n */".toList
    dialect.MovesForward ∧ text.Opens ∧
      dialect.read text = .error (.unresolved "@y".toList ['\\']) ∧
      ∃ place tag name, dialect.StartsAt text place ∧ dialect.Unresolved place tag name ∧
        Failure.unresolved "@y".toList ['\\'] = .unresolved tag name := by
  intro rule resolver dialect text
  have forward : dialect.MovesForward := by
    intro _ mem cursor payload after run
    rw [List.mem_singleton.mp mem] at run
    obtain ⟨_, _, -, failed⟩ := bind_eq_ok.mp run
    cases failed
  have opens : text.Opens := ⟨[], "\n * @x a b\n * @y\n */".toList, nofun, rfl⟩
  have failed : dialect.read text = .error (.unresolved "@y".toList ['\\']) := rfl
  exact ⟨forward, opens, failed, ((fails_only_where_unresolved forward text).2.2.1 opens _).mp failed⟩

end Dialect

end DocComment
