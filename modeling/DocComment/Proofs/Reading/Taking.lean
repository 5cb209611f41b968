import DocComment.Proofs.Reading.Crossing
import DocComment.Proofs.Token.LineByLine

/-!
# Readers that take a written form

A reader takes a text when it moves over exactly its tokens and the padding
behind them.  What follows the text is left free but for a condition on its
start, so that forms can be put one behind the other (`Read.Takes`).
-/

namespace DocComment

open Token

namespace Cursor

/-- The cursor stands in front of a text, behind its padding and behind where another one stands. -/
structure Reaches (before : Cursor) (text : Text) (after : Cursor) : Prop where
  rest : after.rest = scan (text.dropWhile isPadding)
  padded : after.isAfterPadding = text.head?.any isPadding
  shorter : after.rest.length < before.rest.length

variable {before middle after cursor : Cursor} {token : Token} {tokens : List Token}
  {text more : Text}

theorem Reaches.of_le (reaches : middle.Reaches text after)
    (short : middle.rest.length ≤ before.rest.length) : before.Reaches text after :=
  ⟨reaches.rest, reaches.padded, Nat.lt_of_lt_of_le reaches.shorter short⟩

theorem Reaches.trans (front : before.Reaches more middle) (back : middle.Reaches text after) :
    before.Reaches text after :=
  back.of_le (Nat.le_of_lt front.shorter)

theorem Reaches.rest_eq (reaches : before.Reaches text after)
    (stands : text.dropWhile isPadding = more) : after.rest = scan more :=
  stands ▸ reaches.rest

/-! ## The token in front of a cursor -/

theorem isAt_of_rest (stands : cursor.rest = token :: tokens) (kind : Kind) :
    cursor.isAt kind = (token.kind == kind) := by
  rw [isAt, kind?, stands]
  rfl

theorem text_of_rest (stands : cursor.rest = token :: tokens) : cursor.text = token.text := by
  rw [text, stands]

theorem kind?_of_rest (stands : cursor.rest = scan text) : cursor.kind? = firstKind? text := by
  rw [kind?, stands, firstKind?]

theorem kind?_of_scan {c : Char} (stands : cursor.rest = scan (c :: more)) :
    cursor.kind? = some (piece c more).1 :=
  (kind?_of_rest stands).trans (firstKind?_cons c more)

theorem rest_step (stands : cursor.rest = token :: tokens) : cursor.step.rest = tokens := by
  rw [step, stands]

/-- Skipping padding behind a token leads up to the text that follows it. -/
theorem reaches_skipPadding (stands : cursor.rest = token :: scan text)
    (other : token.kind ≠ .padding) :
    cursor.Reaches text cursor.step.skipPadding := by
  have skipped : cursor.step.skipPadding.rest = scan (text.dropWhile isPadding) := by
    rw [skipPadding, skipWhile, rest_step stands]
    exact dropWhile_scan text
  refine ⟨skipped, ?_, ?_⟩
  · rw [skipPadding, skipWhile, step, stands, isAfterPadding]
    dsimp only
    rw [takeWhile_scan]
    cases pads : text.head?.any isPadding with
    | true => rfl
    | false => simpa using other
  · have short := (List.dropWhile_sublist (fun token : Token => token.kind == .padding)
      (l := scan text)).length_le
    rw [skipped, ← dropWhile_scan, stands, List.length_cons]
    omega

theorem reaches_advance (stands : cursor.rest = token :: scan text)
    (other : token.kind ≠ .padding) :
    cursor.Reaches text cursor.advance :=
  reaches_skipPadding stands other

end Cursor

namespace Read

variable {α β : Type} {cursor : Cursor} {token : Token} {tokens : List Token}

theorem run_move (f : Cursor → Cursor) (cursor : Cursor) : move f cursor = .ok () (f cursor) :=
  rfl

theorem run_step (cursor : Cursor) : step cursor = .ok () cursor.step :=
  rfl

theorem run_advance (cursor : Cursor) : advance cursor = .ok () cursor.advance :=
  rfl

theorem run_expect {kind : Kind} (stands : cursor.rest = token :: tokens)
    (same : token.kind = kind) :
    expect kind cursor = .ok token cursor.advance := by
  unfold expect
  rw [run_get_bind, stands]
  dsimp only
  rw [if_pos same]
  rfl

theorem run_accept_of_rest {kind : Kind} (stands : cursor.rest = token :: tokens)
    (same : token.kind = kind) : accept kind cursor = .ok true cursor.advance := by
  have here : cursor.isAt kind = true := by rw [Cursor.isAt_of_rest stands, same, beq_self_eq_true]
  rw [run_accept, Cursor.accept_of_isAt here, here]

theorem run_accept_of_not_isAt {kind : Kind} (other : cursor.isAt kind = false) :
    accept kind cursor = .ok false cursor := by
  rw [run_accept, Cursor.accept_of_not_isAt other, other]

theorem run_takeText (stands : cursor.rest = token :: tokens) :
    takeText cursor = .ok token.text cursor.advance := by
  unfold takeText
  rw [run_get_bind, Cursor.text_of_rest stands]
  rfl

/--
In front of the written form of a value and a text that follows it, with no
more tokens than a limit, the reader gives the value and stops in front of
that text, behind its padding.
-/
def Takes (limit : Nat) (read : Read α) (value : α) (written rest : Text) : Prop :=
  ∀ cursor : Cursor, cursor.rest = scan (written ++ rest) → cursor.rest.length ≤ limit →
    ∃ after, read cursor = .ok value after ∧ cursor.Reaches rest after

/-! ## Optional marks -/

/-- A mark that may be absent is taken where it stands. -/
theorem run_accept_optional {kind : Kind} {mark more : Text} {before : Cursor}
    (known : kind ≠ .padding) (scanned : scan (mark ++ more) = ⟨kind, mark⟩ :: scan more)
    (other : firstKind? more ≠ some kind) (firm : firstKind? more ≠ some .padding) {present : Bool}
    (stands : before.rest = scan ((if present then mark else []) ++ more)) :
    ∃ after, accept kind before = .ok present after ∧ after.rest = scan more ∧
      after.rest.length ≤ before.rest.length ∧ (present = true → before.Reaches more after) := by
  cases present with
  | false =>
      have absent : before.isAt kind = false := by
        rw [Cursor.isAt, Cursor.kind?_of_rest stands]
        exact beq_eq_false_iff_ne.mpr other
      exact ⟨before, run_accept_of_not_isAt absent, stands, Nat.le_refl _, fun no => by cases no⟩
  | true =>
      rw [if_pos rfl, scanned] at stands
      have reached := Cursor.reaches_advance stands known
      exact ⟨before.advance, run_accept_of_rest stands rfl,
        reached.rest_eq (dropWhile_of_firstKind? firm), Nat.le_of_lt reached.shorter,
        fun _ => reached⟩

/-! ## Lists -/

/-- In front of a mark and a text the separator takes the mark. -/
def Separates (separator : Read Bool) (mark text : Text) : Prop :=
  ∀ cursor : Cursor, cursor.rest = scan (mark ++ text) →
    ∃ after, separator cursor = .ok true after ∧ after.rest = scan text ∧
      after.rest.length < cursor.rest.length

theorem separates_accept {c : Char} {kind : Kind} {padding text : Text}
    (marks : markKind? c = some kind) (blank : ∀ d ∈ padding, isPadding d = true)
    (firm : text.dropWhile isPadding = text) : Separates (accept kind) (c :: padding) text := by
  intro cursor stands
  rw [List.cons_append, scan_mark marks] at stands
  have known : kind ≠ .padding := by
    rintro rfl
    cases Kind.isMark_of_markKind? marks
  have reached := Cursor.reaches_advance stands known
  refine ⟨cursor.advance, run_accept_of_rest stands rfl, reached.rest_eq ?_, reached.shorter⟩
  rw [List.dropWhile_append_of_pos blank, firm]

/--
Values whose written forms, each with a mark in front of it, are taken in front
of a text.  A condition on what follows an item holds in front of a mark and in
front of that text.
-/
structure Listed (limit : Nat) (separator : Read Bool) (item : Read α) (mark : Text) (written : α → Text)
    (goesOn : Text → Prop) (values : List α) (rest : Text) : Prop where
  firm : ∀ text, (mark ++ text).dropWhile isPadding = mark ++ text
  separates : ∀ value ∈ values, ∀ text, Separates separator mark (written value ++ text)
  takes : ∀ value ∈ values, ∀ text, goesOn text → Takes limit item value (written value) text
  marked : ∀ text, goesOn (mark ++ text)
  ends : goesOn rest
  stops : ∀ cursor : Cursor, cursor.rest = scan (rest.dropWhile isPadding) →
    separator cursor = .ok false cursor

namespace Listed

variable {separator : Read Bool} {item : Read α} {mark rest : Text} {written : α → Text}
  {limit : Nat} {goesOn : Text → Prop} {value : α} {values : List α} {before cursor : Cursor}

theorem tail (listed : Listed limit separator item mark written goesOn (value :: values) rest) :
    Listed limit separator item mark written goesOn values rest :=
  { listed with
    separates := (List.forall_mem_cons.mp listed.separates).2
    takes := (List.forall_mem_cons.mp listed.takes).2 }

/-- What stands behind an item lets it end. -/
theorem follows (listed : Listed limit separator item mark written goesOn values rest) :
    goesOn (values.flatMap (fun value => mark ++ written value) ++ rest) := by
  cases values with
  | nil => exact listed.ends
  | cons value values =>
      rw [List.flatMap_cons, List.append_assoc, List.append_assoc]
      exact listed.marked _

theorem run_further (listed : Listed limit separator item mark written goesOn values rest)
    {bound : Nat}
    (reaches : before.Reaches (values.flatMap (fun value => mark ++ written value) ++ rest) cursor)
    (enough : cursor.rest.length ≤ bound) (within : cursor.rest.length ≤ limit) :
    ∃ after, further separator item bound cursor = .ok values after ∧
      before.Reaches rest after := by
  induction values generalizing cursor bound with
  | nil =>
      refine ⟨cursor, ?_, reaches⟩
      cases bound with
      | zero => rfl
      | succ bound =>
          rw [further, run_bind_of_ok (listed.stops cursor reaches.rest)]
          rfl
  | cons value values ih =>
      have stands := reaches.rest
      rw [List.flatMap_cons, List.append_assoc, List.append_assoc, listed.firm] at stands
      obtain ⟨middle, separated, behind, short⟩ :=
        listed.separates value List.mem_cons_self _ cursor stands
      obtain ⟨third, took, reached⟩ :=
        listed.takes value List.mem_cons_self _ listed.tail.follows middle behind (by omega)
      have shorter := reached.shorter
      have forward := reaches.shorter
      cases bound with
      | zero => omega
      | succ bound =>
          obtain ⟨after, ran, stops⟩ :=
            @ih third listed.tail bound (reached.of_le (by omega)) (by omega)
            (by omega)
          refine ⟨after, ?_, stops⟩
          rw [further, run_bind_of_ok separated]
          change (item >>= _) middle = _
          rw [run_bind_of_ok took, run_bind_of_ok ran]
          rfl

/-- Further items are taken with the marks in front of them. -/
theorem run_allFurther (listed : Listed limit separator item mark written goesOn values rest)
    (reaches : before.Reaches (values.flatMap (fun value => mark ++ written value) ++ rest) cursor)
    (within : cursor.rest.length ≤ limit) :
    ∃ after, allFurther separator item cursor = .ok values after ∧ before.Reaches rest after :=
  listed.run_further reaches (Nat.le_refl _) within

end Listed

end Read

end DocComment
