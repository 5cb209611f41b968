import DocComment.Proofs.Reading.Exchange
import DocComment.Proofs.TypeExpr.Essentials

/-!
# Reading a type drops and invents nothing

Between the place where a reader of types starts and the place where it ends stand
the words that the written form of its value spells (`Read.Conveys`), up to the tokens
that say nothing.  So a text and the written form of its type have the same essentials
(`TypeExpr.essentials_of_ofText`).
-/

namespace DocComment

open Token
open Dialect (ArePieces)

namespace Cursor

/-! ## Words between two places -/

/-- From one place to a later one some words are passed. -/
structure Passes (words : List Text) (cursor after : Cursor) : Prop where
  suffix : after.rest <:+ cursor.rest
  whole : essentials cursor.rest = words ++ essentials after.rest

section Passes

variable {cursor middle after : Cursor} {words others : List Text} {kind : Kind}

theorem Passes.refl (cursor : Cursor) : Passes [] cursor cursor :=
  ⟨List.suffix_rfl, rfl⟩

theorem Passes.trans (front : Passes words cursor middle) (back : Passes others middle after) :
    Passes (words ++ others) cursor after :=
  ⟨back.suffix.trans front.suffix, by rw [front.whole, back.whole, List.append_assoc]⟩

theorem Passes.arePieces (passes : Passes words cursor after) (pieces : ArePieces cursor.rest) :
    ArePieces after.rest :=
  fun token mem => pieces token (passes.suffix.mem mem)

theorem passes_skipPadding (cursor : Cursor) : Passes [] cursor cursor.skipPadding :=
  ⟨List.dropWhile_suffix _, (essentials_dropWhile cursor.rest).symm⟩

theorem passes_step (stands : cursor.kind? = some kind) (speaks : kind.speaks = true) :
    Passes [cursor.text] cursor cursor.step := by
  obtain ⟨token, tokens, split, rfl⟩ := exists_cons_of_kind? stands
  refine ⟨cursor.suffix_step, ?_⟩
  rw [rest_step split, split, text_of_rest split, essentials_cons_of_speaks speaks]
  rfl

theorem passes_advance (stands : cursor.kind? = some kind) (speaks : kind.speaks = true) :
    Passes [cursor.text] cursor cursor.advance :=
  (passes_step stands speaks).trans (passes_skipPadding _)

/-- A token that says nothing is passed with the padding behind it. -/
theorem passes_advance_of_isSilent {token : Token} {tokens : List Token}
    (split : cursor.rest = token :: tokens)
    (silent : token.isSilent tokens = true) : Passes [] cursor cursor.advance := by
  have stepped : Passes [] cursor cursor.step := by
    refine ⟨cursor.suffix_step, ?_⟩
    rw [rest_step split, split, essentials_cons_of_isSilent silent]
    rfl
  exact stepped.trans (passes_skipPadding _)

theorem passes_advance_round (stands : cursor.kind? = some kind)
    (round : kind = .roundOpen ∨ kind = .roundClose) :
    Passes [] cursor cursor.advance := by
  obtain ⟨token, tokens, split, rfl⟩ := exists_cons_of_kind? stands
  refine passes_advance_of_isSilent split ?_
  rcases round with round | round <;> rw [isSilent, round]

/-- Whether a comma says something is seen behind it. -/
theorem isSilent_comma {token : Token} {tokens : List Token} (split : cursor.rest = token :: tokens)
    (comma : token.kind = .comma) : token.isSilent tokens = cursor.advance.isAt .curlyClose := by
  have behind : cursor.advance.rest = tokens.dropWhile fun token => token.kind == .padding := by
    rw [← rest_step split]
    rfl
  rw [isSilent, comma, isAt, kind?, behind]

theorem passes_advance_last_comma (stands : cursor.isAt .comma = true)
    (last : cursor.advance.isAt .curlyClose = true) : Passes [] cursor cursor.advance := by
  obtain ⟨token, tokens, split, comma⟩ := exists_cons_of_kind? (beq_iff_eq.mp stands)
  exact passes_advance_of_isSilent split ((isSilent_comma split comma).trans last)

section Pieces

variable (pieces : ArePieces cursor.rest)
include pieces

theorem text_of_mark {c : Char} (stands : cursor.kind? = some kind)
    (marks : markKind? c = some kind) :
    cursor.text = [c] := by
  obtain ⟨token, tokens, split, rfl⟩ := exists_cons_of_kind? stands
  have known : token.kind ≠ .other := by
    intro other
    rw [other] at marks
    cases Kind.isMark_of_markKind? marks
  rw [text_of_rest split]
  exact (pieces token (split ▸ List.mem_cons_self) known).text_of_mark marks

theorem text_of_ellipsis (stands : cursor.kind? = some .ellipsis) :
    cursor.text = ['.', '.', '.'] := by
  obtain ⟨token, tokens, split, kind⟩ := exists_cons_of_kind? stands
  rw [text_of_rest split]
  exact (pieces token (split ▸ List.mem_cons_self) (by rw [kind]; decide)).text_of_ellipsis kind

theorem isSole_text (stands : cursor.kind? = some kind) (word : kind.isWord = true) :
    isSole kind cursor.text = true := by
  obtain ⟨token, tokens, split, rfl⟩ := exists_cons_of_kind? stands
  have known : token.kind ≠ .other := by
    intro other
    rw [other] at word
    cases word
  rw [text_of_rest split]
  exact isSole_of_isPiece (pieces token (split ▸ List.mem_cons_self) known) word

theorem passes_advance_comma (stands : cursor.isAt .comma = true)
    (more : cursor.advance.isAt .curlyClose = false) : Passes [[',']] cursor cursor.advance := by
  have text : cursor.text = [','] := text_of_mark pieces (beq_iff_eq.mp stands) rfl
  obtain ⟨token, tokens, split, comma⟩ := exists_cons_of_kind? (beq_iff_eq.mp stands)
  have heard := (isSilent_comma split comma).trans more
  rw [text_of_rest split] at text
  have stepped : Passes [[',']] cursor cursor.step := by
    refine ⟨cursor.suffix_step, ?_⟩
    rw [rest_step split, split, essentials, heard, if_neg Bool.false_ne_true, text]
    rfl
  exact stepped.trans (passes_skipPadding _)

end Pieces

end Passes

end Cursor

namespace Read

open Cursor

variable {α β : Type}

/-! ## What readers convey -/

/-- When a reader succeeds, the words that it has passed suit its value. -/
def Conveys (post : α → List Text → Prop) (read : Read α) (cursor : Cursor) : Prop :=
  ArePieces cursor.rest → ∀ value after, read cursor = .ok value after →
    ∃ words, cursor.Passes words after ∧ post value words

section Conveys

variable {post : α → List Text → Prop} {cursor : Cursor} {kind : Kind}

theorem conveys_pure {value : α} (suits : post value []) (cursor : Cursor) :
    Conveys post (pure value) cursor := by
  rintro - _ _ ⟨⟩
  exact ⟨[], .refl cursor, suits⟩

theorem conveys_bind {read : Read β} {next : β → Read α} {first : β → List Text → Prop}
    (front : Conveys first read cursor)
    (back : ∀ value middle words, first value words →
      Conveys (fun result more => post result (words ++ more)) (next value) middle) :
    Conveys post (read >>= next) cursor := by
  intro pieces result after run
  obtain ⟨value, middle, ran, later⟩ := bind_eq_ok.mp run
  obtain ⟨words, passes, suits⟩ := front pieces value middle ran
  obtain ⟨more, behind, final⟩ :=
    back value middle words suits (passes.arePieces pieces) result after later
  exact ⟨words ++ more, passes.trans behind, final⟩

theorem conveys_get_bind {next : Cursor → Read α} (back : Conveys post (next cursor) cursor) :
    Conveys post (get >>= next) cursor :=
  back

theorem conveys_failExpecting (kind : Kind) (cursor : Cursor) :
    Conveys post (failExpecting kind) cursor :=
  fun _ _ _ run => nomatch run

theorem conveys_skipPadding (cursor : Cursor) :
    Conveys (fun _ words => words = []) (move Cursor.skipPadding) cursor := by
  rintro - _ _ ⟨⟩
  exact ⟨[], passes_skipPadding cursor, rfl⟩

theorem conveys_step (stands : cursor.kind? = some kind) (speaks : kind.speaks = true) :
    Conveys (fun _ words => words = [cursor.text]) step cursor := by
  rintro - _ _ ⟨⟩
  exact ⟨_, passes_step stands speaks, rfl⟩

theorem conveys_advance_mark {c : Char} (stands : cursor.kind? = some kind)
    (marks : markKind? c = some kind)
    (speaks : kind.speaks = true) : Conveys (fun _ words => words = [[c]]) advance cursor := by
  rintro pieces _ _ ⟨⟩
  exact ⟨_, passes_advance stands speaks, by rw [text_of_mark pieces stands marks]⟩

theorem conveys_advance_round (stands : cursor.kind? = some kind)
    (round : kind = .roundOpen ∨ kind = .roundClose) :
    Conveys (fun _ words => words = []) advance cursor := by
  rintro - _ _ ⟨⟩
  exact ⟨_, passes_advance_round stands round, rfl⟩

theorem conveys_takeText (stands : cursor.kind? = some kind) (word : kind.isWord = true)
    (speaks : kind.speaks = true) :
    Conveys (fun text words => text = cursor.text ∧ isSole kind text = true ∧
      words = [text]) takeText cursor := by
  rintro pieces _ _ ⟨⟩
  exact ⟨_, passes_advance stands speaks, rfl, isSole_text pieces stands word, rfl⟩

theorem conveys_expect_mark {c : Char} (marks : markKind? c = some kind)
    (speaks : kind.speaks = true)
    (cursor : Cursor) : Conveys (fun _ words => words = [[c]]) (expect kind) cursor := by
  intro pieces _ _ run
  obtain ⟨stands, -, rfl⟩ := expect_eq_ok run
  exact ⟨_, passes_advance stands speaks, by rw [text_of_mark pieces stands marks]⟩

theorem conveys_expect_roundClose (cursor : Cursor) :
    Conveys (fun _ words => words = []) (expect .roundClose) cursor := by
  intro _ _ _ run
  obtain ⟨stands, -, rfl⟩ := expect_eq_ok run
  exact ⟨_, passes_advance_round stands (.inr rfl), rfl⟩

theorem conveys_accept (speaks : kind.speaks = true) {text : Text}
    (spelled : ∀ cursor : Cursor, ArePieces cursor.rest → cursor.kind? = some kind →
      cursor.text = text)
    (cursor : Cursor) :
    Conveys (fun found words => words = if found then [text] else []) (accept kind) cursor := by
  intro pieces found after run
  rw [run_accept] at run
  cases run
  cases stands : cursor.isAt kind with
  | false =>
      rw [accept_of_not_isAt stands]
      exact ⟨[], .refl cursor, rfl⟩
  | true =>
      have here := beq_iff_eq.mp stands
      rw [accept_of_isAt stands, ← spelled cursor pieces here]
      exact ⟨_, passes_advance here speaks, rfl⟩

/-! ## Lists -/

variable {item : Read α} {write : α → Text} {separator : Read Bool} {stands : Cursor → Bool}

/-- Items are enumerated when the separator is passed in front of each one and says one word. -/
theorem conveys_further {mark word : Text}
    (separates : ∀ cursor, separator cursor =
      .ok (stands cursor) (if stands cursor then cursor.advance else cursor))
    (passed : ∀ cursor, stands cursor = true → ArePieces cursor.rest →
      (∃ value after, item cursor.advance = .ok value after) → cursor.Passes [word] cursor.advance)
    (heard : ∀ text, TypeExpr.OpensType text → ∀ rest,
      essentials (scan (mark ++ (text ++ rest))) = word :: essentials (scan (text ++ rest)))
    (items : ∀ cursor, Conveys (fun value words => IsSpelled (write value) words) item cursor)
    (bound : Nat) (cursor : Cursor) :
    Conveys (fun values words => Enumerates mark word (values.map write) words)
      (further separator item bound) cursor := by
  induction bound generalizing cursor with
  | zero => exact conveys_pure .nil cursor
  | succ bound ih =>
      intro pieces values after run
      rw [further, run_bind_of_ok (separates cursor)] at run
      cases here : stands cursor with
      | false =>
          rw [here] at run
          cases run
          exact ⟨[], .refl cursor, .nil⟩
      | true =>
          rw [here] at run
          obtain ⟨value, middle, ran, run⟩ := bind_eq_ok.mp run
          obtain ⟨others, final, later, run⟩ := bind_eq_ok.mp run
          cases run
          have separation := passed cursor here pieces ⟨value, middle, ran⟩
          obtain ⟨words, passes, spelled⟩ := items _ (separation.arePieces pieces) value middle ran
          have behind := separation.trans passes
          obtain ⟨more, continues, enumerates⟩ :=
            ih middle (behind.arePieces pieces) others after later
          exact ⟨_, behind.trans continues, .cons (heard _ spelled.opens) spelled.spells enumerates⟩

/-- A separator that always says something. -/
theorem conveys_allFurther_mark {c : Char} (marks : markKind? c = some kind)
    (speaks : kind.speaks = true)
    (separates : ∀ cursor, separator cursor =
      .ok (stands cursor) (if stands cursor then cursor.advance else cursor))
    (isAt : ∀ cursor, stands cursor = true → cursor.isAt kind = true)
    (items : ∀ cursor, Conveys (fun value words => IsSpelled (write value) words) item cursor)
    (cursor : Cursor) :
    Conveys (fun values words => Enumerates [c] [c] (values.map write) words)
      (allFurther separator item) cursor := by
  refine conveys_further separates (fun cursor here pieces _ => ?_)
    (fun _ _ _ => essentials_mark marks speaks _)
    items _ cursor
  have present := beq_iff_eq.mp (isAt cursor here)
  rw [← text_of_mark pieces present marks]
  exact passes_advance present speaks

end Conveys

end Read

namespace TypeExpr

namespace Grammar

open Read Cursor

variable {α : Type} {write : α → Text} {item : Read α} {cursor : Cursor}

/-! ## Types -/

/-- A reader conveys what its values spell when they are written, and does not
start at a closing brace. -/
structure IsFaithful (write : α → Text) (read : Read α) : Prop where
  conveys : ∀ cursor, Conveys (fun value words => IsSpelled (write value) words) read cursor
  opens : ∀ cursor value after, read cursor = .ok value after → cursor.isAt .curlyClose = false

theorem conveys_allFurther_comma (faithful : IsFaithful write item) (cursor : Cursor) :
    Conveys (fun values words => Enumerates [',', ' '] [','] (values.map write) words)
      (allFurther (accept .comma) item) cursor := by
  refine conveys_further (run_accept .comma) (fun cursor stands pieces => ?_)
    (fun _ => essentials_comma)
    faithful.conveys _ cursor
  rintro ⟨value, after, run⟩
  exact passes_advance_comma pieces stands (faithful.opens _ _ _ run)

theorem separates_intersection (cursor : Cursor) :
    acceptIntersection cursor =
      .ok (isAtIntersection cursor)
        (if isAtIntersection cursor then cursor.advance else cursor) := by
  cases joins : isAtIntersection cursor with
  | false => exact run_acceptIntersection_of_not joins
  | true => exact run_acceptIntersection joins

theorem conveys_brackets (bound : Nat) {inner : TypeExpr} {words : List Text}
    (spelled : IsSpelled inner.render words) (cursor : Cursor) :
    Conveys (fun type more => IsSpelled type.render (words ++ more))
      (brackets bound inner) cursor := by
  induction bound generalizing inner words cursor with
  | zero => exact conveys_pure (by rwa [List.append_nil]) cursor
  | succ bound ih =>
      apply conveys_get_bind
      split
      next stands =>
        simp only [isAtBrackets, Bool.and_eq_true, beq_iff_eq] at stands
        have opens : cursor.kind? = some .squareOpen := beq_iff_eq.mp stands.1.1
        intro pieces
        have left : cursor.text = ['['] := text_of_mark pieces opens rfl
        have stepped := passes_step opens rfl
        have closes : cursor.step.kind? = some .squareClose := (kind?_step cursor).trans stands.2
        have right : cursor.step.text = [']'] := text_of_mark (stepped.arePieces pieces) closes rfl
        have passes := stepped.trans (passes_advance closes rfl)
        rw [left, right] at passes
        intro type after run
        obtain ⟨more, later, spelled⟩ := ih (isSpelled_array spelled) cursor.step.advance
          (passes.arePieces pieces) type after run
        exact ⟨_, passes.trans later, by rwa [List.append_assoc] at spelled⟩
      next => exact conveys_pure (by rwa [List.append_nil]) cursor

section Parts

variable {atom type : Read TypeExpr}

theorem isFaithful_bind {β : Type} {read : Read α} {next : α → Read β} {write : β → Text}
    (opens : ∀ cursor value after, read cursor = .ok value after → cursor.isAt .curlyClose = false)
    (conveys : ∀ cursor, Conveys (fun value words => IsSpelled (write value) words)
      (read >>= next) cursor) :
    IsFaithful write (read >>= next) where
  conveys := conveys
  opens cursor result after run := by
    obtain ⟨value, middle, ran, -⟩ := bind_eq_ok.mp run
    exact opens cursor value middle ran

theorem isFaithful_postfixType (atoms : IsFaithful render atom) :
    IsFaithful render (postfixType atom) := by
  refine isFaithful_bind atoms.opens fun cursor => ?_
  exact conveys_bind (atoms.conveys cursor) fun inner middle words spelled =>
    conveys_get_bind (conveys_brackets _ spelled middle)

theorem isFaithful_typeWith (atoms : IsFaithful render atom) :
    IsFaithful render (typeWith atom) := by
  have members := isFaithful_postfixType atoms
  refine isFaithful_bind members.opens fun cursor => ?_
  refine conveys_bind (members.conveys cursor) fun first middle words spelled => ?_
  apply conveys_get_bind
  split
  next =>
    refine conveys_bind
      (conveys_allFurther_mark (c := '|') rfl rfl (run_accept .bar) (fun _ here => here)
      members.conveys middle)
      fun others behind more enumerates => conveys_pure ?_ behind
    rw [List.append_nil, render]
    exact isSpelled_join (fun _ => endsWord_of_mark rfl _) spelled enumerates
  next =>
    apply conveys_get_bind
    split
    next =>
      refine conveys_bind
        (conveys_allFurther_mark (c := '&') rfl rfl separates_intersection (fun _ joins => ?_)
        members.conveys middle) fun others behind more enumerates => conveys_pure ?_ behind
      · rw [isAtIntersection, Bool.and_eq_true] at joins
        exact joins.1
      · rw [List.append_nil, render]
        exact isSpelled_join (fun _ => endsWord_of_mark rfl _) spelled enumerates
    next => exact conveys_pure (by rwa [List.append_nil]) middle

/-! ## Callables and shapes -/

theorem conveys_acceptVariable (cursor : Cursor) :
    Conveys (fun name words => words = name.toList ∧
      ∀ text, name = some text → isSole .varName text = true)
      acceptVariable cursor := by
  apply conveys_get_bind
  split
  next stands =>
    refine conveys_bind (conveys_takeText (beq_iff_eq.mp stands) rfl rfl) ?_
    rintro text behind words ⟨-, sole, rfl⟩
    exact conveys_pure ⟨rfl, by rintro _ ⟨⟩; exact sole⟩ behind
  next => exact conveys_pure ⟨rfl, nofun⟩ cursor

theorem isFaithful_callableParam (types : IsFaithful render type) :
    IsFaithful paramText (callableParam type) := by
  refine isFaithful_bind types.opens fun cursor => ?_
  refine conveys_bind (types.conveys cursor) fun inner typed words spelled => ?_
  have ampersand (cursor : Cursor) (pieces : ArePieces cursor.rest)
      (stands : cursor.kind? = some .ampersand) :
      cursor.text = ['&'] := text_of_mark pieces stands rfl
  refine conveys_bind (conveys_accept rfl ampersand typed) ?_
  rintro byReference marked _ rfl
  refine conveys_bind (conveys_accept rfl (fun _ => text_of_ellipsis) marked) ?_
  rintro variadic spread _ rfl
  refine conveys_bind (conveys_acceptVariable spread) ?_
  rintro name named _ ⟨rfl, sole⟩
  refine conveys_pure ?_ named
  simpa only [List.append_nil, wordsOfMarks] using
    @isSpelled_param _ ⟨inner, byReference, variadic, name⟩ spelled sole

theorem conveys_callableParams (types : IsFaithful render type) (cursor : Cursor) :
    Conveys (fun params words => Lists (params.map paramText) words)
      (callableParams type) cursor := by
  have params := isFaithful_callableParam types
  apply conveys_get_bind
  split
  next => exact conveys_pure .nil cursor
  next =>
    refine conveys_bind (params.conveys cursor) fun first middle words spelled => ?_
    refine conveys_bind (conveys_allFurther_comma params middle)
      fun others behind more enumerates => conveys_pure ?_ behind
    rw [List.append_nil]
    exact .cons spelled enumerates

theorem exists_kind_of_isAtKey (stands : isAtKey cursor = true) :
    ∃ kind, cursor.kind? = some kind ∧ (kind = .name ∨ kind = .quoted ∨ kind = .number) := by
  rw [isAtKey, Bool.and_eq_true] at stands
  obtain ⟨leads, -⟩ := stands
  split at leads
  next here => exact ⟨_, here, .inl rfl⟩
  next here => exact ⟨_, here, .inr (.inl rfl)⟩
  next here => exact ⟨_, here, .inr (.inr rfl)⟩
  next => cases leads

theorem isFaithful_shapeItem (types : IsFaithful render type) :
    IsFaithful itemText (shapeItem type) := by
  constructor
  case conveys =>
    intro cursor
    apply conveys_get_bind
    split
    next stands =>
      obtain ⟨kind, here, leads⟩ := exists_kind_of_isAtKey stands
      have word : kind.isWord = true ∧ kind.speaks = true := by
        rcases leads with rfl | rfl | rfl <;> decide
      refine conveys_bind (conveys_takeText here word.1 word.2) ?_
      rintro key keyed _ ⟨-, sole, rfl⟩
      have question (cursor : Cursor) (pieces : ArePieces cursor.rest)
          (stands : cursor.kind? = some .question) :
          cursor.text = ['?'] := text_of_mark pieces stands rfl
      refine conveys_bind (conveys_accept rfl question keyed) ?_
      rintro optional marked _ rfl
      refine conveys_bind (conveys_expect_mark (c := ':') rfl rfl marked) ?_
      rintro _ parted _ rfl
      refine conveys_bind (types.conveys parted) fun value behind words spelled =>
        conveys_pure ?_ behind
      have known : isKey key = true := by
        rcases leads with rfl | rfl | rfl <;> simp [isKey, sole]
      simpa [wordsOfKey] using @isSpelled_item _ ⟨some key, optional, value⟩ spelled
        (by rintro _ ⟨⟩; exact known)
    next =>
      refine conveys_bind (types.conveys cursor) fun value behind words spelled =>
        conveys_pure ?_ behind
      rw [List.append_nil]
      exact @isSpelled_item _ ⟨none, false, value⟩ spelled (by rintro _ ⟨⟩)
  case opens =>
    intro cursor item after run
    rw [shapeItem, run_get_bind] at run
    split at run
    next stands =>
      obtain ⟨kind, here, leads⟩ := exists_kind_of_isAtKey stands
      rw [isAt, here]
      rcases leads with rfl | rfl | rfl <;> rfl
    next =>
      obtain ⟨value, middle, ran, -⟩ := bind_eq_ok.mp run
      exact types.opens cursor value middle ran

/--
The items in front of the closing brace are a list.  Where the last one has a comma
behind it, that comma says nothing.
-/
theorem passes_shapeItems (types : IsFaithful render type) (bound : Nat) {cursor after : Cursor}
    {items : List (ShapeItem TypeExpr)} (pieces : ArePieces cursor.rest)
    (run : shapeItems type bound cursor = .ok items after)
    (closes : after.isAt .curlyClose = true) :
    (cursor.isAt .curlyClose = true → items = []) ∧ (items = [] → after = cursor) ∧
      ∃ words, cursor.Passes words after ∧ Lists (items.map itemText) words := by
  have readers := isFaithful_shapeItem types
  induction bound generalizing cursor items with
  | zero =>
      cases run
      exact ⟨fun _ => rfl, fun _ => rfl, [], .refl _, .nil⟩
  | succ bound ih =>
      rw [shapeItems, run_get_bind] at run
      split at run
      next =>
        cases run
        exact ⟨fun _ => rfl, fun _ => rfl, [], .refl _, .nil⟩
      next more =>
        obtain ⟨item, middle, ran, run⟩ := bind_eq_ok.mp run
        obtain ⟨words, passes, spelled⟩ := readers.conveys cursor pieces item middle ran
        have inside := readers.opens cursor item middle ran
        have alone : Lists ([item].map itemText) (words ++ []) := .cons spelled .nil
        rw [List.append_nil] at alone
        have proper {others : List (ShapeItem TypeExpr)}
            (behind : ∃ words, cursor.Passes words after ∧
            Lists ((item :: others).map itemText) words) :
            (cursor.isAt .curlyClose = true → item :: others = []) ∧
            (item :: others = [] → after = cursor) ∧ ∃ words, cursor.Passes words after ∧
              Lists ((item :: others).map itemText) words :=
          ⟨fun stands => absurd (inside.symm.trans stands) Bool.false_ne_true,
            fun none => absurd none (List.cons_ne_nil _ _), behind⟩
        rw [run_bind_of_ok (run_accept .comma middle)] at run
        cases comma : middle.isAt .comma with
        | false =>
            rw [comma, accept_of_not_isAt comma] at run
            cases run
            exact proper ⟨words, passes, alone⟩
        | true =>
            rw [comma, accept_of_isAt comma] at run
            obtain ⟨others, final, later, run⟩ := bind_eq_ok.mp run
            cases run
            have ahead := passes.arePieces pieces
            obtain ⟨stops, rests, more, behind, lists⟩ :=
              ih (fun token mem => ahead token (middle.suffix_advance.mem mem)) later
            cases last : middle.advance.isAt .curlyClose with
            | true =>
                obtain rfl := stops last
                obtain rfl := rests rfl
                exact proper
                  ⟨_, passes.trans (passes_advance_last_comma comma last), by rwa [List.append_nil]⟩
            | false =>
                have follows : others ≠ [] := fun none =>
                  absurd (last.symm.trans (rests none ▸ closes)) Bool.false_ne_true
                have parted := passes.trans (passes_advance_comma ahead comma last)
                refine proper ⟨_, parted.trans behind, ?_⟩
                rw [List.append_assoc]
                exact lists.cons_comma (by simpa using follows) spelled

/-! ## Atoms -/

theorem conveys_namedType (atoms : IsFaithful render atom) {cursor : Cursor}
    (stands : cursor.kind? = some .name) :
    Conveys (fun type words => IsSpelled type.render words) (namedType atom) cursor := by
  have types := isFaithful_typeWith atoms
  intro pieces
  have sole := isSole_text pieces stands rfl
  revert pieces
  apply conveys_get_bind
  refine conveys_bind (conveys_step stands rfl) ?_
  rintro _ named _ rfl
  apply conveys_get_bind
  split
  next opens =>
    refine conveys_bind (conveys_advance_mark (c := '<') (beq_iff_eq.mp opens) rfl rfl) ?_
    rintro _ opened _ rfl
    refine conveys_bind (types.conveys opened) fun first middle words spelled => ?_
    refine conveys_bind (conveys_allFurther_comma types middle)
      fun others behind more enumerates => ?_
    refine conveys_bind (conveys_expect_mark (c := '>') rfl rfl behind) ?_
    rintro _ closed _ rfl
    refine conveys_pure ?_ closed
    simpa using isSpelled_generic sole spelled enumerates
  split
  next opens =>
    rw [Bool.and_eq_true] at opens
    refine conveys_bind (conveys_advance_round (beq_iff_eq.mp opens.1) (.inl rfl)) ?_
    rintro _ opened _ rfl
    refine conveys_bind (conveys_callableParams types opened) fun params middle words lists => ?_
    refine conveys_bind (conveys_expect_roundClose middle) ?_
    rintro _ closed _ rfl
    refine conveys_bind (conveys_expect_mark (c := ':') rfl rfl closed) ?_
    rintro _ parted _ rfl
    refine conveys_bind ((isFaithful_postfixType atoms).conveys parted)
      fun result behind more spelled => ?_
    refine conveys_pure ?_ behind
    simpa using isSpelled_callable sole lists spelled
  split
  next opens =>
    rw [Bool.and_eq_true] at opens
    refine conveys_bind (conveys_advance_mark (c := '{') (beq_iff_eq.mp opens.1) rfl rfl) ?_
    rintro _ opened _ rfl
    intro pieces type after run
    obtain ⟨items, middle, ran, run⟩ := bind_eq_ok.mp run
    obtain ⟨_, final, closed, run⟩ := bind_eq_ok.mp run
    have closes := (expect_eq_ok closed).1
    obtain ⟨-, -, words, passes, lists⟩ :=
      passes_shapeItems types _ pieces ran (beq_iff_eq.mpr closes)
    obtain ⟨_, behind, rfl⟩ :=
      conveys_expect_mark (c := '}') rfl rfl middle (passes.arePieces pieces) _ _ closed
    cases run
    exact ⟨_, passes.trans behind, by simpa using isSpelled_shape sole lists⟩
  next =>
    refine conveys_bind (conveys_skipPadding named) ?_
    rintro _ behind _ rfl
    exact conveys_pure (isSpelled_word sole (.inl rfl)) behind

end Parts

theorem isFaithful_atom (depth : Nat) : IsFaithful render (atom depth) := by
  induction depth with
  | zero => exact ⟨conveys_failExpecting _, fun _ _ _ run => nomatch run⟩
  | succ depth ih =>
      constructor
      case opens =>
        intro cursor type after run
        rw [atom, run_get_bind] at run
        cases here : cursor.isAt .curlyClose with
        | false => rfl
        | true =>
            rw [beq_iff_eq.mp here] at run
            cases run
      case conveys =>
        intro cursor
        apply conveys_get_bind
        split
        next stands =>
          refine conveys_bind (conveys_advance_mark (c := '?') stands rfl rfl) ?_
          rintro _ middle _ rfl
          refine conveys_bind (ih.conveys middle) fun inner behind words spelled =>
            conveys_pure ?_ behind
          rw [List.append_nil]
          exact isSpelled_nullable spelled
        next stands =>
          refine conveys_bind (conveys_advance_round stands (.inl rfl)) ?_
          rintro _ middle _ rfl
          refine conveys_bind ((isFaithful_typeWith ih).conveys middle)
            fun inner behind words spelled => ?_
          refine conveys_bind (conveys_expect_roundClose behind) ?_
          rintro _ closed _ rfl
          refine conveys_pure ?_ closed
          simpa using spelled
        next stands =>
          refine conveys_bind (conveys_takeText stands rfl rfl) ?_
          rintro text behind _ ⟨-, sole, rfl⟩
          exact conveys_pure (isSpelled_word sole (.inr (.inl rfl))) behind
        next stands =>
          refine conveys_bind (conveys_takeText stands rfl rfl) ?_
          rintro text behind _ ⟨-, sole, rfl⟩
          exact conveys_pure (isSpelled_word sole (.inr (.inr rfl))) behind
        next stands =>
          split
          next self =>
            refine conveys_bind (conveys_takeText stands rfl rfl) ?_
            rintro text behind _ ⟨rfl, -, rfl⟩
            refine conveys_pure ?_ behind
            rw [self]
            exact isSpelled_self
          next => exact conveys_failExpecting _ _
        next stands => exact conveys_namedType ih stands
        next => exact conveys_failExpecting _ _

end Grammar

/-! ## Whole texts -/

/--
A text that describes a type and the written form of that type say the same: their
tokens without padding, parentheses and commas in front of closing braces are the same.
-/
theorem essentials_of_ofText {text : Text} {type : TypeExpr} (described : ofText text = .ok type) :
    essentials (scan text) = essentials (scan type.render) := by
  have pieces : ArePieces (Cursor.ofTokens (scan text)).rest := fun token mem known =>
    isPiece_of_mem_scan ((List.dropWhile_suffix _).mem mem) known
  have whole : essentials (Cursor.ofTokens (scan text)).rest = essentials (scan text) :=
    essentials_dropWhile (scan text)
  rw [ofText, Read.valueAt] at described
  split at described
  next value after run =>
    cases described
    obtain ⟨found, middle, ran, run⟩ := Read.bind_eq_ok.mp run
    rw [Read.run_get_bind] at run
    split at run
    next final =>
      cases run
      obtain ⟨words, passes, spelled⟩ :=
        (Grammar.isFaithful_typeWith (Grammar.isFaithful_atom _)).conveys _ pieces type after ran
      have written := spelled.spells [] endsWord_nil
      rw [List.append_nil] at written
      rw [← whole, passes.whole, List.isEmpty_iff.mp final, written]
      rfl
    next => cases run
  next => cases described

/-- A text with spaces, needless parentheses and a comma behind the last item says
what its type says. -/
theorem essentials_of_ofText_loose :
    let text := "( ?(array\x7b 'a'? : ( A|B ) , b:callable( A & ( B ) &...$x , C ) : D , \x7d ) )[]".toList
    let type : TypeExpr := .array (.nullable (.shape "array".toList
      [⟨some "'a'".toList, true, .union [.named "A".toList, .named "B".toList]⟩,
        ⟨some "b".toList, false, .callable "callable".toList
          [⟨.intersection [.named "A".toList, .named "B".toList], true, true, some "$x".toList⟩,
            ⟨.named "C".toList, false, false, none⟩]
          (.named "D".toList)⟩]))
    ofText text = .ok type ∧
      type.render = "(?array\x7b'a'?: A|B, b: callable(A&B &...$x, C): D\x7d)[]".toList ∧
      essentials (scan text) = essentials (scan type.render) :=
  ⟨rfl, by decide, essentials_of_ofText rfl⟩

end TypeExpr

end DocComment
