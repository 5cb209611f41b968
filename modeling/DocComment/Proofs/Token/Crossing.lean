import DocComment.Token.Cursor
import Mathlib.Data.List.Induction

/-!
# Crossing tokens

A cursor is determined by its tokens and its place.  `Cursor.Crosses` relates
two cursors over the same tokens, the second no further back than the first,
and bounds the kinds of the tokens between them.  All facts about where a
reader can end up are instances of it.
-/

namespace DocComment

namespace Token

theorem kindAt?_eq_some_iff {tokens : List Token} {place : Nat} {kind : Kind} :
    kindAt? tokens place = some kind ↔ ∃ token, tokens[place]? = some token ∧ token.kind = kind :=
  Option.map_eq_some_iff

theorem lt_length_of_kindAt? {tokens : List Token} {place : Nat} {kind : Kind}
    (stands : kindAt? tokens place = some kind) : place < tokens.length := by
  obtain ⟨token, found, _⟩ := kindAt?_eq_some_iff.mp stands
  exact (List.getElem?_eq_some_iff.mp found).1

theorem kindAt?_of_lt {tokens : List Token} {place : Nat} (within : place < tokens.length) :
    kindAt? tokens place = some tokens[place].kind := by
  rw [kindAt?, List.getElem?_eq_getElem within]
  rfl

theorem exists_kindAt? {tokens : List Token} {place : Nat} (within : place < tokens.length) :
    ∃ kind, kindAt? tokens place = some kind :=
  ⟨_, kindAt?_of_lt within⟩

/-- The tokens of a run are the first ones of the list, and all belong to the class. -/
theorem exists_of_lt_takeWhile {p : Token → Bool} {tokens : List Token} {count : Nat}
    (near : count < (tokens.takeWhile p).length) :
    ∃ token, tokens[count]? = some token ∧ p token = true := by
  have taken := List.getElem?_eq_getElem near
  refine ⟨_, ?_, List.all_eq_true.mp List.all_takeWhile _ (List.mem_of_getElem? taken)⟩
  calc
    tokens[count]? = (tokens.takeWhile p ++ tokens.dropWhile p)[count]? := by
      rw [List.takeWhile_append_dropWhile]
    _ = (tokens.takeWhile p)[count]? := List.getElem?_append_left near
    _ = _ := taken

/-- All places from one up to another hold padding. -/
structure Padded (tokens : List Token) (start stop : Nat) : Prop where
  start_le : start ≤ stop
  padding : ∀ place, start ≤ place → place < stop → kindAt? tokens place = some .padding

theorem Padded.refl (tokens : List Token) (place : Nat) : Padded tokens place place :=
  ⟨Nat.le_refl _, fun _ lower upper => absurd upper (Nat.not_lt.mpr lower)⟩

/-- A place that holds no padding ends every padded stretch that it does not lie in front of. -/
theorem Padded.eq_of_kindAt? {tokens : List Token} {start stop : Nat}
    (padded : Padded tokens start stop) (other : kindAt? tokens start ≠ some .padding) :
    stop = start := by
  rcases Nat.lt_or_ge start stop with proper | _
  · exact absurd (padded.padding start (Nat.le_refl _) proper) other
  · exact Nat.le_antisymm (by assumption) padded.start_le

theorem unclosed_of_padding {tokens : List Token} (soft : ∀ token ∈ tokens, token.kind = .padding) :
    ∀ token ∈ tokens, token.kind ≠ .closing := fun token mem closes => by
  cases closes.symm.trans (soft token mem)

/-- Tokens are a stretch that does not end in padding, and the padding behind it. -/
theorem exists_firm (tokens : List Token) :
    ∃ shared padding, tokens = shared ++ padding ∧ (∀ token ∈ padding, token.kind = .padding) ∧
      ∀ token, shared.getLast? = some token → token.kind ≠ .padding := by
  induction tokens using List.reverseRecOn with
  | nil => exact ⟨[], [], rfl, nofun, nofun⟩
  | append_singleton tokens last ih =>
      by_cases pads : last.kind = .padding
      · obtain ⟨shared, padding, rfl, soft, firm⟩ := ih
        refine ⟨shared, padding ++ [last], List.append_assoc _ _ _, fun token mem => ?_, firm⟩
        rcases List.mem_append.mp mem with mem | mem
        · exact soft token mem
        · exact List.mem_singleton.mp mem ▸ pads
      · refine ⟨tokens ++ [last], [], (List.append_nil _).symm, nofun, fun token final => ?_⟩
        rw [List.getLast?_concat] at final
        exact Option.some.inj final ▸ pads

end Token

namespace Cursor

open Token

/-! ## Places -/

theorem index_le_length (cursor : Cursor) : cursor.index ≤ cursor.tokens.length := by
  simp [index, tokens]

theorem rest_eq_drop (cursor : Cursor) : cursor.rest = cursor.tokens.drop cursor.index := by
  simp [tokens, index]

theorem length_rest (cursor : Cursor) :
    cursor.rest.length = cursor.tokens.length - cursor.index := by
  simp [tokens, index]

theorem kindAt?_add (cursor : Cursor) (count : Nat) :
    kindAt? cursor.tokens (cursor.index + count) = (cursor.rest[count]?).map Token.kind := by
  rw [kindAt?, rest_eq_drop, List.getElem?_drop]

theorem kind?_eq (cursor : Cursor) : cursor.kind? = kindAt? cursor.tokens cursor.index := by
  have here := cursor.kindAt?_add 0
  rw [Nat.add_zero, ← List.head?_eq_getElem?] at here
  exact here.symm

theorem isAt_iff {cursor : Cursor} {kind : Kind} :
    cursor.isAt kind = true ↔ kindAt? cursor.tokens cursor.index = some kind := by
  rw [isAt, kind?_eq, beq_iff_eq]

theorem exists_cons_of_kind? {cursor : Cursor} {kind : Kind} (stands : cursor.kind? = some kind) :
    ∃ token tokens, cursor.rest = token :: tokens ∧ token.kind = kind := by
  obtain ⟨token, head, same⟩ := Option.map_eq_some_iff.mp stands
  obtain ⟨tokens, split⟩ := List.head?_eq_some_iff.mp head
  exact ⟨token, tokens, split, same⟩

theorem isAtEnd_iff {cursor : Cursor} :
    cursor.isAtEnd = true ↔ cursor.tokens.length ≤ cursor.index := by
  rw [isAtEnd, List.isEmpty_iff, rest_eq_drop, List.drop_eq_nil_iff]

/-! ## Crossings -/

/-- The second cursor lies behind the first, and the kinds between them belong to a class. -/
structure Crosses (p : Kind → Prop) (before after : Cursor) : Prop where
  tokens : after.tokens = before.tokens
  index_le : before.index ≤ after.index
  kinds : ∀ place kind, before.index ≤ place → place < after.index →
    kindAt? before.tokens place = some kind → p kind

namespace Crosses

variable {p q : Kind → Prop} {first second third : Cursor}

theorem refl (p : Kind → Prop) (cursor : Cursor) : Crosses p cursor cursor :=
  ⟨rfl, Nat.le_refl _, fun _ _ lower upper _ => absurd upper (Nat.not_lt.mpr lower)⟩

theorem trans (front : Crosses p first second) (back : Crosses p second third) :
    Crosses p first third := by
  refine ⟨back.tokens.trans front.tokens, Nat.le_trans front.index_le back.index_le, ?_⟩
  intro place kind lower upper stands
  rcases Nat.lt_or_ge place second.index with inside | outside
  · exact front.kinds place kind lower inside stands
  · exact back.kinds place kind outside upper (by rw [front.tokens]; exact stands)

theorem mono (crosses : Crosses p first second) (weaker : ∀ kind, p kind → q kind) :
    Crosses q first second :=
  ⟨crosses.tokens, crosses.index_le, fun place kind lower upper stands =>
    weaker kind (crosses.kinds place kind lower upper stands)⟩

/-- What remains behind a crossing is the end of what remained in front of it. -/
theorem suffix (crosses : Crosses p first second) : second.rest <:+ first.rest := by
  obtain ⟨count, behind⟩ := Nat.exists_eq_add_of_le crosses.index_le
  rw [rest_eq_drop, rest_eq_drop, crosses.tokens, behind, ← List.drop_drop]
  exact List.drop_suffix count _

/-- A cursor that has only passed tokens has crossed them. -/
theorem of_passed (crossed : List Token) (rest : first.rest = crossed ++ second.rest)
    (passed : second.passed = crossed.reverse ++ first.passed)
    (kinds : ∀ token ∈ crossed, p token.kind) : Crosses p first second := by
  have index : second.index = first.index + crossed.length := by
    simp [Cursor.index, passed, Nat.add_comm]
  refine ⟨by simp [Cursor.tokens, passed, rest], by omega, ?_⟩
  intro place kind lower upper stands
  obtain ⟨count, rfl⟩ := Nat.exists_eq_add_of_le lower
  rw [kindAt?_add, rest, List.getElem?_append_left (by omega)] at stands
  obtain ⟨token, found, rfl⟩ := Option.map_eq_some_iff.mp stands
  exact kinds token (List.mem_of_getElem? found)

end Crosses

/-! ## Moves -/

theorem crosses_skipWhile (p : Kind → Bool) (cursor : Cursor) :
    Crosses (fun kind => p kind = true) cursor (cursor.skipWhile p) := by
  refine .of_passed _ List.takeWhile_append_dropWhile.symm rfl ?_
  exact fun token mem => List.all_eq_true.mp List.all_takeWhile token mem

/-- Behind the tokens that were skipped stands none of their class. -/
theorem kind?_skipWhile {p : Kind → Bool} {cursor : Cursor} {kind : Kind}
    (stands : (cursor.skipWhile p).kind? = some kind) : p kind = false := by
  obtain ⟨token, found, rfl⟩ := Option.map_eq_some_iff.mp stands
  have outside := List.head?_dropWhile_not (fun token => p token.kind) cursor.rest
  change (cursor.rest.dropWhile fun token => p token.kind).head? = some token at found
  rw [found] at outside
  exact outside

theorem kind?_skipPadding_ne (cursor : Cursor) :
    cursor.skipPadding.kind? ≠ some .padding := fun pads =>
  Bool.false_ne_true ((kind?_skipWhile pads).symm.trans (by decide))

theorem crosses_skipPadding (cursor : Cursor) :
    Crosses (· = .padding) cursor cursor.skipPadding :=
  (cursor.crosses_skipWhile (· == .padding)).mono fun _ same => beq_iff_eq.mp same

theorem crosses_step {p : Kind → Prop} (cursor : Cursor)
    (kinds : ∀ kind, cursor.kind? = some kind → p kind) : Crosses p cursor cursor.step := by
  unfold step
  split
  next => exact .refl p cursor
  next token rest stands =>
    refine .of_passed [token] stands rfl ?_
    intro other mem
    rw [List.mem_singleton.mp mem]
    exact kinds token.kind (by rw [kind?, stands]; rfl)

theorem suffix_step (cursor : Cursor) : cursor.step.rest <:+ cursor.rest := by
  unfold step
  split
  next => exact List.suffix_rfl
  next token tokens split =>
    rw [split]
    exact List.suffix_cons _ _

theorem index_step {cursor : Cursor} {kind : Kind} (stands : cursor.kind? = some kind) :
    cursor.step.index = cursor.index + 1 := by
  obtain ⟨token, found, _⟩ := Option.map_eq_some_iff.mp stands
  obtain ⟨rest, whole⟩ := List.head?_eq_some_iff.mp found
  simp [step, whole, index]

theorem kind?_step (cursor : Cursor) : cursor.step.kind? = cursor.nextKind? := by
  unfold step
  split
  next none => simp [kind?, nextKind?, none]
  next token rest stands => simp [kind?, nextKind?, stands]

theorem crosses_advance {p : Kind → Prop} (cursor : Cursor) (padding : p .padding)
    (kinds : ∀ kind, cursor.kind? = some kind → p kind) : Crosses p cursor cursor.advance :=
  (cursor.crosses_step kinds).trans
    (cursor.step.crosses_skipPadding.mono fun _ same => same ▸ padding)

theorem suffix_advance (cursor : Cursor) : cursor.advance.rest <:+ cursor.rest :=
  (List.dropWhile_suffix _).trans cursor.suffix_step

theorem suffix_skipBreaks (cursor : Cursor) : cursor.skipBreaks.rest <:+ cursor.rest :=
  List.dropWhile_suffix _

theorem crosses_accept {p : Kind → Prop} (kind : Kind) (cursor : Cursor) (padding : p .padding)
    (accepted : p kind) : Crosses p cursor (cursor.accept kind) := by
  unfold accept
  split
  next stands =>
    refine cursor.crosses_advance padding fun found here => ?_
    rw [isAt, here, beq_iff_eq, Option.some.injEq] at stands
    exact stands ▸ accepted
  next => exact .refl p cursor

theorem crosses_forward {p : Kind → Prop} (count : Nat) (cursor : Cursor)
    (kinds : ∀ token ∈ cursor.rest.take count, p token.kind) :
    Crosses p cursor (cursor.forward count) :=
  .of_passed _ (List.take_append_drop count cursor.rest).symm rfl kinds

theorem crosses_toLineEnd (cursor : Cursor) :
    Crosses (fun kind => kind ≠ .lineBreak ∧ kind ≠ .closing) cursor cursor.toLineEnd :=
  (cursor.crosses_skipWhile _).mono fun kind inside => by simpa using inside

/-! ## Line ends -/

theorem isAtLineEnd_iff {cursor : Cursor} :
    cursor.isAtLineEnd = true ↔
      ∀ kind, cursor.kind? = some kind → kind = .lineBreak ∨ kind = .closing := by
  cases stands : cursor.kind? with
  | none => simp [isAtLineEnd, stands]
  | some kind => cases kind <;> simp [isAtLineEnd, stands]

theorem isAtLineEnd_toLineEnd (cursor : Cursor) : cursor.toLineEnd.isAtLineEnd = true := by
  rw [isAtLineEnd_iff]
  intro kind stands
  have outside := kind?_skipWhile stands
  by_cases broken : kind = .lineBreak
  · exact Or.inl broken
  · exact Or.inr (by simpa [broken] using outside)

theorem isAtLineEnd_eq (cursor : Cursor) :
    cursor.isAtLineEnd = (cursor.isAtClose || cursor.isAt .lineBreak) := by
  unfold isAtLineEnd isAtClose isAt isAtEnd kind?
  cases cursor.rest with
  | nil => rfl
  | cons token rest => cases stands : token.kind <;> simp [stands]

/-! ## Padding -/

theorem Crosses.padded {before after : Cursor} (crosses : Crosses (· = .padding) before after) :
    Padded before.tokens before.index after.index := by
  refine ⟨crosses.index_le, fun place lower upper => ?_⟩
  have within := after.index_le_length
  rw [crosses.tokens] at within
  obtain ⟨kind, stands⟩ := exists_kindAt? (Nat.lt_of_lt_of_le upper within)
  rw [stands, crosses.kinds place kind lower upper stands]

theorem padded_advance {cursor : Cursor} {kind : Kind} (stands : cursor.kind? = some kind) :
    Padded cursor.tokens (cursor.index + 1) cursor.advance.index := by
  have padded := cursor.step.crosses_skipPadding.padded
  rw [index_step stands, tokens_step] at padded
  exact padded

theorem index_lt_advance {cursor : Cursor} {kind : Kind} (stands : cursor.kind? = some kind) :
    cursor.index < cursor.advance.index :=
  (padded_advance stands).start_le

theorem tokens_accept (kind : Kind) (cursor : Cursor) :
    (cursor.accept kind).tokens = cursor.tokens := by
  unfold accept
  split
  next => exact cursor.tokens_advance
  next => rfl

theorem accept_of_isAt {cursor : Cursor} {kind : Kind} (stands : cursor.isAt kind = true) :
    cursor.accept kind = cursor.advance :=
  if_pos stands

theorem accept_of_not_isAt {cursor : Cursor} {kind : Kind} (stands : cursor.isAt kind = false) :
    cursor.accept kind = cursor :=
  if_neg (by simp [stands])

theorem index_placed_ge {tokens : List Token} {place : Nat} (within : place ≤ tokens.length) :
    place ≤ (placed tokens place).index := by
  have crosses := crosses_skipPadding ⟨(tokens.take place).reverse, tokens.drop place⟩
  have start : (Cursor.mk (tokens.take place).reverse (tokens.drop place)).index = place := by
    simp [index, within]
  calc
    place = _ := start.symm
    _ ≤ (placed tokens place).index := crosses.index_le

theorem padded_ofTokens (tokens : List Token) : Padded tokens 0 (ofTokens tokens).index := by
  have padded := (crosses_skipPadding ⟨[], tokens⟩).padded
  simpa [Cursor.tokens, index, ofTokens, placed] using padded

theorem significantEnd_le (floor : Nat) (cursor : Cursor) :
    cursor.significantEnd floor ≤ cursor.index :=
  Nat.sub_le _ _

theorem le_significantEnd {floor : Nat} {cursor : Cursor} (behind : floor ≤ cursor.index) :
    floor ≤ cursor.significantEnd floor := by
  unfold significantEnd
  dsimp only
  omega

theorem kindAt?_of_passed {cursor : Cursor} {count : Nat} {token : Token}
    (stands : cursor.passed[count]? = some token) :
    kindAt? cursor.tokens (cursor.index - 1 - count) = some token.kind := by
  have within : count < cursor.passed.length := (List.getElem?_eq_some_iff.mp stands).1
  have reversed : cursor.passed.reverse[cursor.passed.length - 1 - count]? = some token := by
    rw [List.getElem?_reverse (by omega), ← stands]
    congr 1
    omega
  rw [kindAt?, tokens, index, List.getElem?_append_left (by simp; omega), reversed]
  rfl

/-- Between the significant end in front of a cursor and the cursor there is only padding. -/
theorem padded_significantEnd (floor : Nat) (cursor : Cursor) :
    Padded cursor.tokens (cursor.significantEnd floor) cursor.index := by
  refine ⟨cursor.significantEnd_le floor, fun place lower upper => ?_⟩
  unfold significantEnd at lower
  dsimp only at lower
  have near : cursor.index - 1 - place <
      (cursor.passed.takeWhile fun token => token.kind == .padding).length := by omega
  obtain ⟨token, stands, padding⟩ := exists_of_lt_takeWhile near
  have here := kindAt?_of_passed stands
  rw [beq_iff_eq.mp padding] at here
  rw [← here]
  congr 1
  omega

end Cursor

end DocComment
