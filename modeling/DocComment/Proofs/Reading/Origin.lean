import DocComment.Proofs.Reading.Elsewhere

/-!
# What is known of a tag that was read

Without rules and annotations the name of a tag is its marker, a typed payload
is of the kind that the name calls for, and behind a description that is not
empty no line goes on with it (`origin_of_entry`).
-/

namespace DocComment

open Token

/-- The token in front of which a cursor stands was cut from the text. -/
theorem Cursor.isPiece_of_kind? {text : Text} {cursor : Cursor} {kind : Kind}
    (tokens : cursor.tokens = scan text)
    (stands : cursor.kind? = some kind) (known : kind ≠ .other) : IsPiece ⟨kind, cursor.text⟩ := by
  obtain ⟨token, more, split, rfl⟩ := exists_cons_of_kind? stands
  have mem : token ∈ scan text := by
    rw [← tokens, Cursor.tokens, split]
    exact List.mem_append_right _ List.mem_cons_self
  rw [text_of_rest split]
  exact isPiece_of_mem_scan mem known

/-! ## Subjects and descriptions -/

namespace Payload.Grammar

open Read Cursor

variable {cursor after : Cursor}

theorem expectSeparated_eq_ok (run : expectSeparated cursor = .ok () after) :
    after = cursor ∧ (cursor.isAtLineEnd || cursor.isAfterPadding) = true := by
  rw [expectSeparated, run_get_bind] at run
  split at run
  next separated =>
    cases run
    exact ⟨rfl, separated⟩
  next => cases run

/-- A variable that is taken is the token in front of the cursor. -/
theorem acceptVariable_eq_ok {name : Text}
    (run : TypeExpr.Grammar.acceptVariable cursor = .ok (some name) after) :
    cursor.kind? = some .varName ∧ name = cursor.text := by
  rw [TypeExpr.Grammar.acceptVariable, run_get_bind] at run
  split at run
  next here =>
    obtain ⟨_, _, taken, finished⟩ := bind_eq_ok.mp run
    cases taken
    cases finished
    exact ⟨beq_iff_eq.mp here, rfl⟩
  next => cases run

/-- The steps in which a subject of each kind is read. -/
inductive Reads (before after : Cursor) : Subject.Kind → Subject → Prop
  | param {first second third : Cursor} {type : Option TypeExpr} {byReference variadic : Bool} {name : Token}
      (typed : typeUnless (isAtParameter before) before = .ok type first)
      (referenced : Read.accept .ampersand first = .ok byReference second)
      (spread : Read.accept .ellipsis second = .ok variadic third) (named : expect .varName third = .ok name after) :
      Reads before after .param (.param type byReference variadic name.text)
  | returned {type : TypeExpr} (typed : TypeExpr.read before = .ok type after) :
      Reads before after .returned (.returned type)
  | var {first : Cursor} {type : Option TypeExpr} {name : Option Text}
      (typed : typeUnless (before.isAt .varName) before = .ok type first)
      (named : TypeExpr.Grammar.acceptVariable first = .ok name after) : Reads before after .var (.var type name)
  | thrown {type : TypeExpr} (typed : TypeExpr.read before = .ok type after) : Reads before after .thrown (.thrown type)

/-- A subject that was read is separated from what follows it. -/
theorem reads_of_subject {kind : Subject.Kind} {found : Subject}
    (run : subject kind cursor = .ok found after) :
    Reads cursor after kind found ∧ (after.isAtLineEnd || after.isAfterPadding) = true := by
  have separated {middle : Cursor} {value : Subject}
      (run : (do expectSeparated; return value : Read Subject) middle = .ok found after) :
      value = found ∧ middle = after ∧ (after.isAtLineEnd || after.isAfterPadding) = true := by
    obtain ⟨_, last, checked, finished⟩ := bind_eq_ok.mp run
    obtain ⟨rfl, separated⟩ := expectSeparated_eq_ok checked
    cases finished
    exact ⟨rfl, rfl, separated⟩
  cases kind with
  | param =>
      rw [subject, run_get_bind] at run
      obtain ⟨type, _, typed, run⟩ := bind_eq_ok.mp run
      obtain ⟨byReference, _, referenced, run⟩ := bind_eq_ok.mp run
      obtain ⟨variadic, _, spread, run⟩ := bind_eq_ok.mp run
      obtain ⟨name, _, named, run⟩ := bind_eq_ok.mp run
      obtain ⟨rfl, rfl, ends⟩ := separated run
      exact ⟨.param typed referenced spread named, ends⟩
  | returned =>
      obtain ⟨type, _, typed, run⟩ := bind_eq_ok.mp run
      obtain ⟨rfl, rfl, ends⟩ := separated run
      exact ⟨.returned typed, ends⟩
  | var =>
      rw [subject, run_get_bind] at run
      obtain ⟨type, _, typed, run⟩ := bind_eq_ok.mp run
      obtain ⟨name, _, named, run⟩ := bind_eq_ok.mp run
      obtain ⟨rfl, rfl, ends⟩ := separated run
      exact ⟨.var typed named, ends⟩
  | thrown =>
      obtain ⟨type, _, typed, run⟩ := bind_eq_ok.mp run
      obtain ⟨rfl, rfl, ends⟩ := separated run
      exact ⟨.thrown typed, ends⟩

theorem kind_of_subject {kind : Subject.Kind} {found : Subject}
    (run : subject kind cursor = .ok found after) :
    found.kind = kind := by
  cases (reads_of_subject run).1 <;> rfl

/-- The variable of a subject that was read has its dollar sign. -/
theorem dollar_of_subject {text : Text} {kind : Subject.Kind} {found : Subject}
    (tokens : cursor.tokens = scan text) (run : subject kind cursor = .ok found after) :
    ∀ name, found.variableName? = some name → name.head? = some '$' := by
  have dollar {middle : Cursor} (tokens : middle.tokens = scan text)
      (here : middle.kind? = some .varName) :
      middle.text.head? = some '$' :=
    (isPiece_of_kind? tokens here (by simp)).head?_of_varName rfl
  cases (reads_of_subject run).1 with
  | param typed referenced spread named =>
      have first := ((staysWithin_typeUnless _ _).of_ok typed).tokens.trans tokens
      have second :=
        ((TypeExpr.Grammar.staysWithin_accept rfl _).of_ok referenced).tokens.trans first
      have third := ((TypeExpr.Grammar.staysWithin_accept rfl _).of_ok spread).tokens.trans second
      obtain ⟨here, written, -⟩ := expect_eq_ok named
      rintro _ ⟨⟩
      rw [written]
      exact dollar third here
  | var typed named =>
      have first := ((staysWithin_typeUnless _ _).of_ok typed).tokens.trans tokens
      rintro name ⟨⟩
      obtain ⟨here, rfl⟩ := acceptVariable_eq_ok named
      exact dollar first here
  | returned | thrown => rintro _ ⟨⟩

/-- The lines of a description are taken until one does not go on with it. -/
theorem continues_of_furtherLines {bound : Nat} {lines : List Text}
    (enough : cursor.rest.length ≤ bound)
    (run : furtherLines bound cursor = .ok lines after) : continues after = false := by
  induction bound generalizing cursor lines with
  | zero =>
      cases run
      have empty := List.length_eq_zero_iff.mp (Nat.le_zero.mp enough)
      rw [continues, isAt, kind?, empty]
      rfl
  | succ bound ih =>
      rcases furtherLines_eq_ok run with ⟨none, rfl, rfl⟩ | ⟨more, others, ran, rfl⟩
      · exact none
      · refine ih ?_ ran
        have first := isAt_lineBreak_of_continues more
        have near := (crosses_toLineEnd cursor.step).index_le
        have forward := index_step first
        have same : cursor.step.toLineEnd.tokens = cursor.tokens := by
          rw [(crosses_toLineEnd cursor.step).tokens, tokens_step]
        rw [length_rest, same]
        rw [length_rest] at enough
        omega

/-- Behind a description that is not empty no line goes on with it. -/
theorem continues_of_description {found : Text × Option Text}
    (run : description cursor = .ok found after)
    (proper : found.1 ≠ []) : continues after = false := by
  obtain ⟨first, middle, -, run⟩ := bind_eq_ok.mp run
  split at run
  · cases run
    exact absurd rfl proper
  · rw [run_get_bind] at run
    obtain ⟨lines, _, ran, finished⟩ := bind_eq_ok.mp run
    cases finished
    exact continues_of_furtherLines (Nat.le_refl _) ran

/-- An empty description was not written in another way. -/
theorem wording_of_description {found : Text × Option Text}
    (run : description cursor = .ok found after) (empty : found.1 = []) : found.2 = none := by
  obtain ⟨first, middle, line, run⟩ := bind_eq_ok.mp run
  rw [restOfLine_eq] at line
  cases line
  split at run
  · cases run
    rfl
  · next proper =>
      rw [run_get_bind] at run
      obtain ⟨lines, _, -, finished⟩ := bind_eq_ok.mp run
      cases finished
      exact absurd empty (collapsed_ne_nil proper rfl lines)

end Payload.Grammar

/-! ## Tags -/

/-- What is known of a tag behind which a reader without rules and annotations stands. -/
structure Tag.Origin (tag : Tag) (after : Cursor) : Prop where
  sole : isSole .tag tag.name = true
  kind : ∀ subject description, tag.payload = .typed subject description →
    Subject.Kind.ofTagName? tag.name = some subject.kind
  halts : ∀ subject description, tag.payload = .typed subject description → description ≠ [] →
    Payload.Grammar.continues after = false
  wording : ∀ subject, tag.payload = .typed subject [] → tag.wording = none
  unworded : ∀ text, tag.payload = .plain text → tag.wording = none

namespace Dialect

theorem plain_onlyVerbatim : plain.OnlyVerbatim := fun _ mem => absurd mem List.not_mem_nil

/-- Without annotations the name of a tag is its marker. -/
theorem tagName_plain_eq_ok {cursor after : Cursor} {name : Text}
    (run : tagName plain cursor = .ok name after) :
    name = cursor.text ∧ after = cursor.step.skipPadding := by
  have unclaimed (text : Text) : plain.claims text = false := rfl
  rw [run_tagName_eq, unclaimed, Bool.and_false, if_neg Bool.false_ne_true] at run
  cases run
  exact ⟨rfl, rfl⟩

/-- Behind a payload the reader of tags stays where it is. -/
theorem eq_of_tag (verbatim : dialect.OnlyVerbatim) {cursor after : Cursor} {found : Entry}
    (run : tag dialect cursor = .ok found after) :
    ∃ name behind content span, tagName dialect cursor = .ok name behind ∧
      payload dialect name behind = .ok content after ∧
      found = .tag ⟨name, content.1, some span, content.2⟩ := by
  obtain ⟨name, behind, content, read, named, taken, same, stop⟩ := tag_eq_ok run
  have ends := isAtLineEnd_of_payload verbatim taken
  rw [if_neg] at stop
  · rw [stop]
    exact ⟨name, behind, content, _, named, taken, same⟩
  · rw [tagStop_eq ends]
    exact Nat.not_lt.mpr (Cursor.significantEnd_le _ _)

/-- An entry that is a tag was read in front of its marker. -/
theorem tag_of_entry {cursor after : Cursor} {tag : Tag}
    (run : entry dialect cursor = .ok (.tag tag) after) :
    cursor.isAt .tag = true ∧ Dialect.tag dialect cursor = .ok (.tag tag) after := by
  rcases entry_eq_ok run with ⟨marked, run⟩ | ⟨-, run⟩
  · exact ⟨marked, run⟩
  · obtain ⟨-, span, -, same⟩ := prose_eq_ok run
    cases same

/-- A tag was read from its marker, and its payload behind the marker and the padding there. -/
theorem payload_of_entry {before after : Cursor} {tag : Tag}
    (run : entry plain before = .ok (.tag tag) after) :
    before.isAt .tag = true ∧ tag.name = before.text ∧
      payload plain before.text before.step.skipPadding = .ok (tag.payload, tag.wording) after := by
  obtain ⟨marked, ran⟩ := tag_of_entry run
  obtain ⟨name, start, content, span, named, taken, same⟩ := eq_of_tag plain_onlyVerbatim ran
  obtain ⟨rfl, rfl⟩ := tagName_plain_eq_ok named
  cases same
  exact ⟨marked, rfl, taken⟩

/-- A typed tag was read by the grammar of subjects and by that of descriptions. -/
theorem subject_of_entry {before after : Cursor} {tag : Tag} {subject : Subject}
    {description : Text} (run : entry plain before = .ok (.tag tag) after)
    (typed : tag.payload = .typed subject description) :
    Subject.Kind.ofTagName? tag.name = some subject.kind ∧
      ∃ middle, Payload.Grammar.subject subject.kind before.step.skipPadding = .ok subject middle ∧
        Payload.Grammar.description middle = .ok (description, tag.wording) after := by
  obtain ⟨-, named, taken⟩ := payload_of_entry run
  rw [typed] at taken
  rcases payload_plain_eq_ok taken with ⟨kind, found, middle, described, calls, read, ran, same⟩ |
    ⟨text, -, same⟩
  · obtain ⟨shaped, worded⟩ := Prod.mk.inj same
    cases shaped
    obtain rfl := Payload.Grammar.kind_of_subject read
    exact ⟨named ▸ calls, middle, read, worded ▸ ran⟩
  · cases same

theorem origin_of_entry {text : Text} {before after : Cursor} {tag : Tag}
    (tokens : before.tokens = scan text)
    (run : entry plain before = .ok (.tag tag) after) : tag.Origin after := by
  constructor
  case sole =>
    obtain ⟨marked, named, -⟩ := payload_of_entry run
    rw [named]
    exact isSole_of_isPiece (Cursor.isPiece_of_kind? tokens (beq_iff_eq.mp marked) (by simp)) rfl
  case kind =>
    intro subject description shape
    exact (subject_of_entry run shape).1
  case halts =>
    intro subject description shape proper
    obtain ⟨-, middle, -, described⟩ := subject_of_entry run shape
    exact Payload.Grammar.continues_of_description described proper
  case wording =>
    intro subject shape
    obtain ⟨-, middle, -, described⟩ := subject_of_entry run shape
    exact Payload.Grammar.wording_of_description described rfl
  case unworded =>
    intro text shape
    obtain ⟨-, -, taken⟩ := payload_of_entry run
    rw [shape] at taken
    rcases payload_plain_eq_ok taken with ⟨kind, found, middle, described, -, -, -, same⟩ |
      ⟨written, -, same⟩
    · cases same
    · exact congrArg Prod.snd same

/-- The variable of a tag that was read has its dollar sign. -/
theorem dollar_of_entry {text : Text} {tag : Tag} {before after : Cursor}
    (tokens : before.tokens = scan text) (run : entry plain before = .ok (.tag tag) after) :
    ∀ name, tag.payload.variableName? = some name → name.head? = some '$' := by
  intro name named
  cases typed : tag.payload with
  | typed subject description =>
      rw [typed] at named
      obtain ⟨-, middle, ran, -⟩ := subject_of_entry run typed
      have behind : before.step.skipPadding.tokens = scan text := by
        rw [Cursor.skipPadding, Cursor.tokens_skipWhile, Cursor.tokens_step, tokens]
      exact Payload.Grammar.dollar_of_subject behind ran name named
  | plain | call | cleared =>
      rw [typed] at named
      cases named

end Dialect

end DocComment
