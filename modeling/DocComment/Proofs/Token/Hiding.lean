import DocComment.Proofs.Text.Closer
import DocComment.Proofs.Token.Pieces
import DocComment.Proofs.Token.Slices

/-!
# Where closing markers hide

A closing marker is a token by itself unless the token in front has taken its
star.  A quote or unknown text may hold a whole closing marker, and an opening
marker or unknown text may end with the star of one (`Hides`).  Where nothing
hides a closing marker, none stands between the tokens of kind `closing`
(`unclosed_textBetween`).
-/

namespace DocComment

namespace Token

/-- The kinds of token whose texts become part of a type. -/
def Kind.isPiece : Kind → Bool
  | .name | .varName | .quoted | .number => true
  | _ => false

theorem Kind.isPiece_eq_false_of_isMark {kind : Kind} (marks : kind.isMark = true) :
    kind.isPiece = false := by
  cases kind <;> first | rfl | cases marks

/-! ## Stars -/

/-- A star stands in a marker, in a line break, in a quote or in unknown text. -/
theorem Cut.ne_star {c : Char} {rest : Text} {kind : Kind} {length : Nat}
    (cut : Cut c rest kind length) :
    (kind = .opening ∨ kind = .closing ∨ kind = .lineBreak ∨ kind = .quoted ∨ kind = .other) ∨
      ∀ d ∈ c :: rest.take length, d ≠ '*' := by
  have run (p : Char → Bool) (outside : p '*' = false) (text : Text) :
      ∀ d ∈ text.take (runLength p text), d ≠ '*' := fun d mem =>
    ne_of_class outside (mem_take_runLength p text d mem)
  have segments (text : Text) : ∀ d ∈ text.take (segmentsLength text), d ≠ '*' := fun d mem =>
    (mem_take_segmentsLength d mem).elim (ne_of_class (by decide)) fun same => by
      rw [same]
      decide
  have digits (text : Text) : ∀ d ∈ text.take (numberLength text), d ≠ '*' := fun d mem =>
    (mem_take_numberLength d mem).elim (ne_of_class (by decide)) fun same => by
      rw [same]
      decide
  cases cut with
  | feed | carriage | opening | closing | quoted | other => simp
  | padding rest pads =>
      exact Or.inr (List.forall_mem_cons.mpr
        ⟨ne_of_class (p := isPadding) (by decide) pads, run isPadding (by decide) rest⟩)
  | tag more starts =>
      exact Or.inr (List.forall_mem_cons.mpr ⟨by decide, List.forall_mem_cons.mpr
        ⟨ne_of_class (p := isNameStart) (by decide) starts, run isNameChar (by decide) more⟩⟩)
  | varName more starts =>
      exact Or.inr (List.forall_mem_cons.mpr ⟨by decide, List.forall_mem_cons.mpr
        ⟨ne_of_class (p := isNameStart) (by decide) starts, run isVariableChar (by decide) more⟩⟩)
  | rooted more starts =>
      exact Or.inr (List.forall_mem_cons.mpr ⟨by decide, List.forall_mem_cons.mpr
        ⟨ne_of_class (p := isNameStart) (by decide) starts, segments more⟩⟩)
  | name rest starts =>
      exact Or.inr (List.forall_mem_cons.mpr
        ⟨ne_of_class (p := isNameStart) (by decide) starts, segments rest⟩)
  | number rest digit =>
      exact Or.inr (List.forall_mem_cons.mpr
        ⟨ne_of_class (p := Char.isDigit) (by decide) digit, digits rest⟩)
  | negative more digit =>
      exact Or.inr (List.forall_mem_cons.mpr ⟨by decide, List.forall_mem_cons.mpr
        ⟨ne_of_class (p := Char.isDigit) (by decide) digit, digits more⟩⟩)
  | ellipsis more => exact Or.inr (by simp)
  | mark rest marks =>
      refine Or.inr (List.forall_mem_singleton.mpr ?_)
      rintro rfl
      cases marks


/-- The star of a line break never closes the comment. -/
theorem head?_drop_decorationLength {text : Text}
    (starred : (text.take (decorationLength text)).getLast? = some '*') :
    (text.drop (decorationLength text)).head? ≠ some '/' := by
  have padded : (text.take (runLength isPadding text)).getLast? ≠ some '*' := fun last => by
    have inside := mem_take_runLength isPadding text '*' (List.mem_of_getLast? last)
    cases inside
  unfold decorationLength at starred ⊢
  dsimp only at starred ⊢
  split at starred
  next => exact absurd starred padded
  next rest other stands =>
    rw [← List.drop_drop, stands]
    intro head
    obtain ⟨more, rfl⟩ := List.head?_eq_some_iff.mp head
    exact other more rfl
  next => exact absurd starred padded

theorem unclosed_take_decorationLength (text : Text) :
    Text.Unclosed (text.take (decorationLength text)) := by
  obtain ⟨star, taken, starred⟩ := take_decorationLength text
  have blank : ∀ c ∈ text.takeWhile isPadding, c ≠ '*' := fun c mem =>
    ne_of_class (by decide) (List.all_eq_true.mp List.all_takeWhile c mem)
  have short : Text.Unclosed star := by
    rcases starred with rfl | rfl
    · exact Text.unclosed_nil
    · exact fun found => by
        have length := found.length_le
        simp [Cleanup.closer] at length
  rw [taken]
  exact (Text.unclosed_of_ne_star blank).append short fun meet =>
    blank '*' (List.mem_of_getLast? meet.1) rfl

theorem getLast?_of_cons {c d : Char} {text : Text} (other : c ≠ d)
    (last : (c :: text).getLast? = some d) : text.getLast? = some d := by
  rw [List.getLast?_cons, Option.some.injEq] at last
  cases stands : text.getLast? with
  | none =>
      rw [stands] at last
      exact absurd last other
  | some found =>
      rw [stands] at last
      exact congrArg some last

/-- Only a quote holds a closing marker, and only an opening marker takes the star of one. -/
theorem Cut.of_known {c : Char} {rest : Text} {kind : Kind} {length : Nat}
    (cut : Cut c rest kind length) (known : kind ≠ .other) (goesOn : kind ≠ .closing) :
    (kind = .quoted ∨ Text.Unclosed (c :: rest.take length)) ∧
      (kind = .opening ∨ ¬ Text.MeetInCloser (c :: rest.take length) (rest.drop length)) := by
  rcases cut.ne_star with special | none
  · rcases special with rfl | rfl | rfl | rfl | rfl
    · cases cut with
      | opening more =>
          refine ⟨Or.inr ?_, Or.inl rfl⟩
          show ¬ Cleanup.closer <:+: ['/', '*', '*']
          decide
      | mark _ marks => cases Kind.isMark_of_markKind? marks
    · exact absurd rfl goesOn
    · cases cut with
      | feed =>
          refine ⟨Or.inr ((unclosed_take_decorationLength rest).cons (by decide)), Or.inr ?_⟩
          rintro ⟨last, head⟩
          exact head?_drop_decorationLength (getLast?_of_cons (by decide) last) head
      | carriage more =>
          rw [List.take_succ_cons, List.drop_succ_cons]
          refine ⟨Or.inr
            (((unclosed_take_decorationLength more).cons (by decide)).cons (by decide)),
            Or.inr ?_⟩
          rintro ⟨last, head⟩
          exact head?_drop_decorationLength
            (getLast?_of_cons (by decide) (getLast?_of_cons (by decide) last)) head
      | mark _ marks => cases Kind.isMark_of_markKind? marks
    · cases cut with
      | quoted quote closed =>
        refine ⟨Or.inl rfl, Or.inr fun meet => ?_⟩
        have last := meet.1
        rw [List.getLast?_cons, getLast?_of_closed closed] at last
        rcases quote with rfl | rfl <;> cases last
      | mark _ marks => cases Kind.isMark_of_markKind? marks
    · exact absurd rfl known
  · refine ⟨Or.inr (Text.unclosed_of_ne_star none), Or.inr fun meet => ?_⟩
    exact none '*' (List.mem_of_getLast? meet.1) rfl

/-- A piece of a type neither begins with a slash nor ends with a star. -/
theorem Cut.of_isPiece {c : Char} {rest : Text} {kind : Kind} {length : Nat}
    (cut : Cut c rest kind length) (piece : kind.isPiece = true) :
    c ≠ '/' ∧ (c :: rest.take length).getLast? ≠ some '*' := by
  constructor
  · cases cut with
    | feed | carriage | padding | opening | closing | tag | ellipsis | other => cases piece
    | varName | rooted | negative => decide
    | name rest starts => exact ne_of_class (p := isNameStart) (by decide) starts
    | quoted quote => rcases quote with rfl | rfl <;> decide
    | number rest digit => exact ne_of_class (p := Char.isDigit) (by decide) digit
    | mark _ marks =>
        rw [Kind.isPiece_eq_false_of_isMark (Kind.isMark_of_markKind? marks)] at piece
        cases piece
  · intro last
    rcases cut.ne_star with special | none
    · rcases special with rfl | rfl | rfl | rfl | rfl
      · cases piece
      · cases piece
      · cases piece
      · cases cut with
        | quoted quote closed =>
            rw [List.getLast?_cons, getLast?_of_closed closed] at last
            rcases quote with rfl | rfl <;> cases last
        | mark _ marks => cases Kind.isMark_of_markKind? marks
      · cases piece
    · exact none '*' (List.mem_of_getLast? last) rfl

/-! ## Tokens and what follows them -/

theorem getElem?_prepend {token found : Token} {tokens : List Token} {place : Nat}
    (stands : (prepend token tokens)[place]? = some found) (known : found.kind ≠ .other) :
    (found = token ∧ (prepend token tokens).drop (place + 1) = tokens) ∨
      ∃ other, tokens[other]? = some found ∧
        (prepend token tokens).drop (place + 1) = tokens.drop (other + 1) := by
  cases tokens with
  | nil =>
      cases place with
      | zero => exact Or.inl ⟨(Option.some.inj stands).symm, rfl⟩
      | succ place => cases stands
  | cons next tokens =>
      rw [prepend] at stands ⊢
      split at stands
      next joined =>
        rw [if_pos joined]
        cases place with
        | zero =>
            cases stands
            exact absurd rfl known
        | succ place => exact Or.inr ⟨place + 1, stands, rfl⟩
      next apart =>
        rw [if_neg apart]
        cases place with
        | zero => exact Or.inl ⟨(Option.some.inj stands).symm, rfl⟩
        | succ place => exact Or.inr ⟨place, stands, rfl⟩

theorem cut_of_getElem?_scanFrom {skip place : Nat} {text : Text} {token : Token}
    (stands : (scanFrom skip text)[place]? = some token) (known : token.kind ≠ .other) :
    ∃ c rest length, Cut c rest token.kind length ∧ token.text = c :: rest.take length ∧
      textOf ((scanFrom skip text).drop (place + 1)) = rest.drop length := by
  induction text generalizing skip place with
  | nil => simp [scanFrom] at stands
  | cons c rest ih =>
      cases skip with
      | succ skip => exact ih stands
      | zero =>
          rcases getElem?_prepend stands known with ⟨rfl, behind⟩ | ⟨other, found, behind⟩
          · refine ⟨c, rest, _, cut_of_piece rfl, rfl, ?_⟩
            rw [← textOf_scanFrom]
            exact congrArg textOf behind
          · obtain ⟨d, more, length, cut, written, follows⟩ := ih found
            exact ⟨d, more, length, cut, written, (congrArg textOf behind).trans follows⟩

/-- A known token is one piece, and behind it stands what follows that piece. -/
theorem cut_of_getElem? {text : Text} {place : Nat} {token : Token}
    (stands : (scan text)[place]? = some token) (known : token.kind ≠ .other) :
    ∃ c rest length, Cut c rest token.kind length ∧ token.text = c :: rest.take length ∧
      textOf ((scan text).drop (place + 1)) = rest.drop length :=
  cut_of_getElem?_scanFrom stands known

/-! ## Hidden closing markers -/

/--
Whether a token that is no closing marker has taken the star of one: in a quote
or unknown text, or at the end of an opening marker or of unknown text.
-/
def Hides (tokens : List Token) (place : Nat) : Prop :=
  ∃ token, tokens[place]? = some token ∧
    ((token.kind = .quoted ∨ token.kind = .other) ∧ Cleanup.closer <:+: token.text ∨
      (token.kind = .opening ∨ token.kind = .other) ∧
        Text.MeetInCloser token.text (textOf (tokens.drop (place + 1))))

instance (tokens : List Token) (place : Nat) : Decidable (Hides tokens place) :=
  inferInstanceAs (Decidable (∃ token ∈ tokens[place]?, _))

/-- The closing marker that a token hides begins inside that token. -/
theorem Hides.exists_split {tokens : List Token} {place : Nat} (hidden : Hides tokens place) :
    ∃ token before behind, tokens[place]? = some token ∧ before.length < token.text.length ∧
      token.text ++ textOf (tokens.drop (place + 1)) = before ++ (Cleanup.closer ++ behind) := by
  obtain ⟨token, stands, ⟨_, before, behind, split⟩ | ⟨_, last, head⟩⟩ := hidden
  · refine ⟨token, before, behind ++ textOf (tokens.drop (place + 1)), stands, ?_, ?_⟩
    · rw [← split, List.length_append, List.length_append, Cleanup.closer]
      simp only [List.length_cons]
      omega
    · rw [← split]
      simp only [List.append_assoc]
  · obtain ⟨before, written⟩ := List.getLast?_eq_some_iff.mp last
    obtain ⟨behind, follows⟩ := List.head?_eq_some_iff.mp head
    refine ⟨token, before, behind, stands, ?_, ?_⟩
    · rw [written, List.length_append]
      exact Nat.lt_succ_self _
    · rw [written, follows, List.append_assoc]
      rfl

variable {text : Text} {start stop place : Nat}

/-- A star that a token takes from a closing marker is hidden there. -/
theorem hides_of_not_unclosed {token : Token} (stands : (scan text)[place]? = some token)
    (goesOn : token.kind ≠ .closing)
    (closes : ¬ token.text.Unclosed ∨
      Text.MeetInCloser token.text (textOf ((scan text).drop (place + 1)))) :
    Hides (scan text) place := by
  refine ⟨token, stands, ?_⟩
  by_cases other : token.kind = .other
  · rw [Text.Unclosed, not_not] at closes
    exact closes.imp (fun inside => ⟨Or.inr other, inside⟩) fun meet => ⟨Or.inr other, meet⟩
  obtain ⟨c, rest, length, cut, written, follows⟩ := cut_of_getElem? stands other
  obtain ⟨quoted, opening⟩ := cut.of_known other goesOn
  rw [← written] at quoted opening
  rw [← follows] at opening
  rcases closes with inside | meet
  · exact Or.inl ⟨Or.inl (quoted.resolve_right inside), not_not.mp inside⟩
  · exact Or.inr ⟨Or.inl (opening.resolve_right (not_not.mpr meet)), meet⟩

/-- Where no token hides a closing marker and none is one, the text has none. -/
theorem unclosed_textBetween (goesOn : ∀ place, start ≤ place → place < stop →
      kindAt? (scan text) place ≠ some .closing)
    (shown : ∀ place, start ≤ place → place < stop → ¬ Hides (scan text) place) :
    Text.Unclosed (textBetween (scan text) start stop) := by
  induction remaining : stop - start generalizing start with
  | zero =>
      rw [textBetween_eq, remaining]
      exact Text.unclosed_nil
  | succ count ih =>
      have proper : start < stop := by omega
      cases stands : (scan text)[start]? with
      | none =>
          rw [textBetween_of_length_le (List.getElem?_eq_none_iff.mp stands)]
          exact Text.unclosed_nil
      | some token =>
          have later := ih (fun place low => goesOn place (Nat.le_of_succ_le low))
            (fun place low => shown place (Nat.le_of_succ_le low)) (by omega)
          have here := shown start (Nat.le_refl _) proper
          have kind : token.kind ≠ .closing := fun same =>
            goesOn start (Nat.le_refl _) proper (by rw [kindAt?, stands, ← same]; rfl)
          have unhidden := mt (hides_of_not_unclosed stands kind) here
          rw [not_or, not_not] at unhidden
          rw [textBetween_cons stands proper]
          refine unhidden.1.append later fun meet => unhidden.2 ⟨meet.1, ?_⟩
          obtain ⟨more, behind⟩ := List.head?_eq_some_iff.mp meet.2
          have front := textBetween_prefix_textOf (scan text) (start + 1) stop
          rw [behind] at front
          obtain ⟨_, whole⟩ := front
          rw [← whole]
          rfl

end Token

end DocComment
