import DocComment.Proofs.Annotation.Rules
import DocComment.Proofs.Reading.Failing
import DocComment.Proofs.Reading.Origin
import DocComment.Proofs.Reading.Written

/-!
# Calls within their payloads

An annotation is read from the start of a payload up to the parenthesis that
closes its call, and its tag stands for the whole payload.  The text behind the
parenthesis (`Annotation.behind`) is part of the tag and of nothing that was read.
-/

namespace DocComment

open Token

namespace Text

/-- The text is a piece of a word: nothing in it is blank. -/
def IsBlack (word : Text) : Prop :=
  word ≠ [] ∧ ∀ c ∈ word, isBlank c = false

/-- A word lies on one side of a blank. -/
theorem IsBlack.infix_of_append {word front back : Text} {c : Char} (black : word.IsBlack)
    (blank : isBlank c = true)
    (inside : word <:+: front ++ c :: back) : word <:+: front ∨ word <:+: back := by
  have whole (front : Text) (starts : word <+: front ++ c :: back) : word <+: front := by
    rcases List.prefix_or_prefix_of_prefix starts (List.prefix_append front (c :: back))
      with within | ⟨more, rfl⟩
    · exact within
    · cases more with
      | nil => rw [List.append_nil]
      | cons d more =>
          have same := (List.cons_prefix_cons.mp ((List.prefix_append_right_inj _).mp starts)).1
          rw [← same, black.2 d (by simp)] at blank
          cases blank
  induction front with
  | nil =>
      rcases List.infix_cons_iff.mp inside with starts | later
      · exact absurd (List.prefix_nil.mp (whole [] starts)) black.1
      · exact Or.inr later
  | cons d front ih =>
      rcases List.infix_cons_iff.mp inside with starts | later
      · exact Or.inl (whole (d :: front) starts).isInfix
      · exact (ih later).imp_left fun within => within.trans (List.suffix_cons d front).isInfix

end Text

/-! ## Payloads without their decoration -/

namespace Payload.Grammar

/-- A word of an undecorated text is one of the source. -/
theorem infix_of_undecorated {word : Text} (black : word.IsBlack) {after : Bool} {front : Text}
    {tokens : List Token}
    (bare : after = true → front = []) (inside : word <:+: front ++ undecorated after tokens) :
    word <:+: front ++ textOf tokens := by
  induction tokens generalizing front after with
  | nil =>
      rw [undecorated, List.append_nil] at inside
      rwa [textOf_nil, List.append_nil]
  | cons token tokens ih =>
      rw [textOf_cons]
      rw [undecorated] at inside
      split at inside
      next =>
        rcases black.infix_of_append (by decide) inside with held | behind
        · exact held.trans (List.prefix_append _ _).isInfix
        · have later := @ih true [] (fun _ => rfl) behind
          rw [← List.append_assoc]
          exact later.trans (List.suffix_append _ _).isInfix
      next =>
        split at inside
        next padded =>
          rw [bare (Bool.and_eq_true_iff.mp padded).1, List.nil_append] at inside ⊢
          obtain ⟨lead, same⟩ := Text.dropSpace_suffix token.text
          have later := ih (fun same => absurd same Bool.false_ne_true) inside
          rw [← same, List.append_assoc]
          exact later.trans (List.suffix_append _ _).isInfix
        next =>
          rw [← List.append_assoc] at inside ⊢
          exact ih (fun same => absurd same Bool.false_ne_true) inside

/-- Where a character stands in an undecorated text it stands in the source, with
the same words behind it. -/
theorem exists_of_undecorated {c : Char} (other : c ≠ '\n') {after : Bool} {front back : Text}
    {tokens : List Token} (split : undecorated after tokens = front ++ c :: back) :
    ∃ before behind, textOf tokens = before ++ c :: behind ∧
      ∀ word : Text, word.IsBlack → word <:+: back → word <:+: behind := by
  induction tokens generalizing after front with
  | nil => cases front <;> cases split
  | cons token tokens ih =>
      rw [textOf_cons]
      -- The character stands among what is kept of the token, or behind it.
      have step (lead kept : Text) (whole : token.text = lead ++ kept)
          (rest : kept ++ undecorated false tokens = front ++ c :: back) :
          ∃ before behind, token.text ++ textOf tokens = before ++ c :: behind ∧
            ∀ word : Text, word.IsBlack → word <:+: back → word <:+: behind := by
        rcases List.append_eq_append_iff.mp rest with ⟨more, rfl, later⟩ | ⟨more, rfl, same⟩
        · obtain ⟨before, behind, found, words⟩ := ih later
          exact ⟨token.text ++ before, behind, by rw [found, List.append_assoc], words⟩
        · cases more with
          | nil =>
              obtain ⟨before, behind, found, words⟩ := @ih false [] same.symm
              exact ⟨token.text ++ before, behind, by rw [found, List.append_assoc], words⟩
          | cons d more =>
              obtain ⟨rfl, rfl⟩ := List.cons.inj same
              refine ⟨lead ++ front, more ++ textOf tokens, ?_, fun word black inside => ?_⟩
              · rw [whole]
                simp
              · exact infix_of_undecorated black (fun same => absurd same Bool.false_ne_true) inside
      rw [undecorated] at split
      split at split
      next =>
        cases front with
        | nil => exact absurd (List.cons.inj split).1.symm other
        | cons d front =>
            obtain ⟨before, behind, found, words⟩ := ih (List.cons.inj split).2
            exact ⟨token.text ++ before, behind, by rw [found, List.append_assoc], words⟩
      next =>
        split at split
        next =>
          obtain ⟨lead, same⟩ := Text.dropSpace_suffix token.text
          exact step lead _ same.symm split
        next => exact step [] _ rfl split

end Payload.Grammar

/-! ## Where a call ends -/

namespace Annotation

variable {naming : Naming}

namespace Grammar

open Read

variable {cursor after : Cursor}

/-- A cursor stands right behind the closing parenthesis of a call and the padding there. -/
def ClosesCall (cursor after : Cursor) : Prop :=
  ∃ closing : Cursor, closing.tokens = cursor.tokens ∧ closing.kind? = some .roundClose ∧ after = closing.advance

/-- A call with parentheses ends behind the one that closes it. -/
theorem call_eq_ok {depth : Nat} {name : Text} {found : Annotation}
    (run : call naming depth name cursor = .ok found after) :
    found.name = name ∧
    (cursor.isAt .roundOpen = true → found.parenthesised = true ∧ ClosesCall cursor after) := by
  rcases call_cases run with ⟨bare, rfl, rfl⟩ |
    ⟨-, inner, bound, known, closing, -, read, stands, rfl, rfl⟩
  · exact ⟨rfl, fun opens => absurd (bare.symm.trans opens) Bool.false_ne_true⟩
  · refine ⟨rfl, fun _ => ⟨rfl, closing, ?_, stands, rfl⟩⟩
    rw [((goesForward_arguments (goesForward_call inner) _ _ _).crosses read).tokens,
      Cursor.skipBreaks, Cursor.tokens_skipWhile, Cursor.tokens_advance]

/-- A payload is an annotation when it has nothing in it, or else a call that some
parenthesis closes. -/
theorem payloadCall_eq_ok {name payload : Text} {found : Annotation}
    (run : payloadCall naming name payload cursor = .ok (some found) after) :
    found.name = name ∧
      (cursor.skipBreaks.kind? = none ∧ found.raw = [] ∧ found.parenthesised = false ∧
        after = cursor.skipBreaks ∨
        (cursor.skipBreaks.kind? = some .roundOpen ∨ cursor.skipBreaks.kind? = some .name) ∧
          found.raw = Text.trim payload ∧ found.parenthesised = true ∧
          ClosesCall cursor after) := by
  rcases payloadCall_cases run with ⟨ended, rfl, rfl⟩ | ⟨written, start, call, starts, called, rfl⟩
  · exact ⟨rfl, .inl ⟨ended, rfl, rfl, rfl⟩⟩
  · obtain ⟨named, closes⟩ := call_eq_ok called
    obtain ⟨parenthesised, closing, tokens, stands, last⟩ := closes starts.opens
    refine ⟨named, .inr ⟨starts.kind?, rfl, parenthesised, closing, ?_, stands, last⟩⟩
    rw [tokens, starts.tokens_eq, Cursor.skipBreaks, Cursor.tokens_skipWhile]

/-- A closing parenthesis and padding stand in front of what a call leaves of its text. -/
theorem ClosesCall.exists_eq {payload : Text}
    (closes : ClosesCall (Cursor.ofTokens (scan payload)) after) :
    ∃ front padding, payload = front ++ ')' :: (padding ++ textOf after.rest) := by
  obtain ⟨closing, tokens, stands, rfl⟩ := closes
  obtain ⟨token, head, kind⟩ := Option.map_eq_some_iff.mp stands
  obtain ⟨rest, split⟩ := List.head?_eq_some_iff.mp head
  rw [Cursor.ofTokens, Cursor.tokens_placed, Cursor.tokens, split] at tokens
  have mem : token ∈ scan payload := by
    rw [← tokens]
    simp
  have mark : token.text = [')'] :=
    (isPiece_of_mem_scan mem (by rw [kind]; decide)).text_of_mark (c := ')') (by rw [kind]; rfl)
  have behind : closing.advance.rest = rest.dropWhile fun token => token.kind == .padding := by
    rw [Cursor.advance, Cursor.step, split]
    rfl
  refine ⟨textOf closing.passed.reverse,
    textOf (rest.takeWhile fun token => token.kind == .padding), ?_⟩
  rw [behind, ← textOf_append, List.takeWhile_append_dropWhile]
  conv => lhs; rw [← textOf_scan payload, ← tokens]
  rw [textOf_append, textOf_cons, mark]
  rfl

end Grammar

/-- What is left of the text of an annotation behind its call. -/
def behind (naming : Naming) (call : Annotation) : Text :=
  match Grammar.payloadCall naming call.name call.raw (Cursor.ofTokens (scan call.raw)) with
  | .ok _ after => textOf after.rest
  | .error _ _ => []

/-- An annotation holds its payload as it was, unless that begins with blanks. -/
theorem raw_eq {name payload : Text} {found : Annotation} {after : Cursor}
    (run : Grammar.payloadCall naming name payload (Cursor.ofTokens (scan payload)) =
      .ok (some found) after)
    (firm : Text.trimEnd payload = payload) (padding : firstKind? payload ≠ some .padding)
    (lineBreak : firstKind? payload ≠ some .lineBreak) : found.raw = payload := by
  have stays : (Cursor.ofTokens (scan payload)).skipBreaks.kind? = firstKind? payload := by
    cases tokens : scan payload with
    | nil => rw [firstKind?, tokens]; rfl
    | cons token rest =>
        rw [firstKind?, tokens] at padding lineBreak ⊢
        have other : token.kind ≠ .padding ∧ token.kind ≠ .lineBreak :=
          ⟨fun same => padding (congrArg some same), fun same => lineBreak (congrArg some same)⟩
        simp [Cursor.ofTokens, Cursor.placed, Cursor.skipPadding, Cursor.skipBreaks,
          Cursor.skipWhile, Cursor.kind?, other.1, other.2]
  rcases (Grammar.payloadCall_eq_ok run).2 with ⟨empty, raw, -, -⟩ | ⟨opens, raw, -, -⟩
  · rw [stays, firstKind?, Option.map_eq_none_iff, List.head?_eq_none_iff] at empty
    rw [raw, ← textOf_scan payload, empty]
    rfl
  · rw [stays] at opens
    have inside : ∃ kind, firstKind? payload = some kind ∧ kind.isWithinType = true ∧
        kind ≠ .padding := by
      rcases opens with first | first
      · exact ⟨_, first, rfl, by decide⟩
      · exact ⟨_, first, rfl, by decide⟩
    obtain ⟨kind, first, inside, firm'⟩ := inside
    obtain ⟨c, rest, length, same, cut⟩ := exists_cut_of_firstKind? first
    have black := (isOrdinary_iff.mp (cut.isOrdinary_of_head? inside firm')).1
    have start : payload.dropWhile isBlank = payload := by
      rw [same, List.dropWhile_cons_of_neg (by rw [black]; exact Bool.false_ne_true)]
    rw [raw, Text.trim, Text.dropAround, start]
    exact firm

/-- What is left behind a call is what its reader has left of the payload. -/
theorem behind_eq {name payload : Text} {found : Annotation} {after : Cursor}
    (run : Grammar.payloadCall naming name payload (Cursor.ofTokens (scan payload)) =
      .ok (some found) after)
    (raw : found.raw = payload) : found.behind naming = textOf after.rest := by
  rw [behind, raw, (Grammar.payloadCall_eq_ok run).1, run]

end Annotation

/-! ## Where the call of a tag stands -/

namespace Dialect

open Read

variable {dialect : Dialect} {before after cursor : Cursor} {tag : Tag} {call : Annotation}

theorem specificPayload_ne_call (verbatim : dialect.OnlyVerbatim) {name : Text}
    {found : Payload × Option Text}
    (run : specificPayload dialect name cursor = .ok (some found) after) :
    found.1 ≠ .call call := by
  unfold specificPayload at run
  cases claimed : dialect.rule? name with
  | some rule =>
      obtain ⟨names, rfl⟩ := verbatim rule (mem_of_rule? claimed)
      rw [claimed] at run
      obtain ⟨result, _, ran, finished⟩ := bind_eq_ok.mp run
      cases result with
      | none => cases finished
      | some payload =>
          cases finished
          obtain ⟨_, _, -, finished⟩ := bind_eq_ok.mp (attempt_eq_some ran)
          cases finished
          exact nofun
  | none =>
      rw [claimed] at run
      cases typed : Subject.Kind.ofTagName? name with
      | some kind =>
          rw [typed] at run
          obtain ⟨_, _, -, ran⟩ := bind_eq_ok.mp (attempt_eq_some run)
          obtain ⟨_, _, -, finished⟩ := bind_eq_ok.mp ran
          cases finished
          exact nofun
      | none =>
          rw [typed] at run
          cases run

theorem ofPayload_of_plainOrAnnotation {name text : Text}
    (given : dialect.plainOrAnnotation name text = .ok (.call call)) :
    ∃ resolved, Annotation.ofPayload dialect.naming resolved text = .ok (some call) := by
  unfold plainOrAnnotation at given
  split at given
  next => cases given
  next resolved claimed =>
    split at given
    next => cases given
    next =>
      split at given
      next found read =>
        cases given
        exact ⟨resolved, read⟩
      next => cases given
      next => cases given

/-- The call of a tag was read from the plain payload behind its name. -/
theorem ofPayload_of_tag (verbatim : dialect.OnlyVerbatim)
    (run : entry dialect before = .ok (.tag tag) after) (annotated : tag.payload = .call call) :
    ∃ middle name, before.isAt .tag = true ∧ tagName dialect before = .ok tag.name middle ∧
      Annotation.ofPayload dialect.naming name (written middle) = .ok (some call) ∧
      after = behindWritten middle := by
  obtain ⟨marked, run⟩ := tag_of_entry run
  obtain ⟨name, middle, content, span, named, taken, same⟩ := eq_of_tag verbatim run
  cases same
  obtain ⟨result, behind, specific⟩ := @succeeds_specificPayload dialect name middle
  cases result with
  | some found =>
      have ran : payload dialect name middle = .ok found behind := run_bind_of_ok specific
      cases taken.symm.trans ran
      exact absurd annotated (specificPayload_ne_call verbatim specific)
  | none =>
      rw [(unfit_of_specificPayload specific).run_payload] at taken
      cases given : dialect.plainOrAnnotation name (written middle) with
      | error failure =>
          rw [given] at taken
          cases taken
      | ok value =>
          rw [given] at taken
          cases taken
          cases annotated
          obtain ⟨resolved, read⟩ := ofPayload_of_plainOrAnnotation given
          exact ⟨middle, resolved, marked, named, read, rfl⟩

/-! ## The first token of a payload -/

/-- A plain payload begins with its tokens up to the first parenthesis, as they stand. -/
theorem exists_flat {tokens : List Token}
    (opening : ∀ token ∈ tokens, token.kind = .roundOpen → token.text = ['(']) :
    ∃ more, Payload.Grammar.undecorated false (tokens.take (Payload.Grammar.plainLength 0 tokens)) =
        textOf (tokens.takeWhile fun token => token.kind ∉ [.roundOpen, .lineBreak, .closing]) ++
          more ∧
      ∀ c, more.head? = some c → c = '(' := by
  induction tokens with
  | nil => exact ⟨[], rfl, nofun⟩
  | cons token tokens ih =>
      rw [Payload.Grammar.plainLength_cons]
      by_cases stops : token.kind = .closing ∨ token.kind = .lineBreak ∧ 0 = 0
      · rw [if_pos stops]
        rw [List.takeWhile_cons_of_neg (by rcases stops with same | ⟨same, -⟩ <;> simp [same])]
        exact ⟨[], rfl, nofun⟩
      · have other : token.kind ≠ .lineBreak := fun same => stops (.inr ⟨same, rfl⟩)
        rw [if_neg stops, List.take_succ_cons, Payload.Grammar.undecorated, if_neg other,
          Bool.false_and, if_neg Bool.false_ne_true]
        by_cases opens : token.kind = .roundOpen
        · rw [List.takeWhile_cons_of_neg (by simp [opens]), opening token List.mem_cons_self opens]
          refine ⟨_, rfl, fun c head => ?_⟩
          cases head
          rfl
        · obtain ⟨more, split, first⟩ :=
            ih fun token mem => opening token (List.mem_cons_of_mem _ mem)
          have flat : roundsBehind 0 token.kind = 0 := by
            cases kind : token.kind <;> first | rfl | exact absurd kind opens
          have inside : token.kind ∉ [Kind.roundOpen, .lineBreak, .closing] := by
            simp only [List.mem_cons, List.not_mem_nil, or_false, not_or]
            exact ⟨opens, other, fun same => stops (.inl same)⟩
          rw [flat, split, List.takeWhile_cons_of_pos (by exact decide_eq_true inside), textOf_cons]
          exact ⟨more, (List.append_assoc _ _ _).symm, first⟩

/-- What begins a plain payload and has no parenthesis begins its source, and no
line break or marker. -/
theorem exists_flat_of_written {text lead rest : Text} (tokens : cursor.tokens = scan text)
    (kept : written cursor = lead ++ rest) (flat : '(' ∉ lead) (proper : lead ≠ []) :
    (∃ behind, textOf cursor.rest = lead ++ behind) ∧ cursor.kind? ≠ some .lineBreak := by
  have opening : ∀ token ∈ cursor.rest, token.kind = .roundOpen → token.text = ['('] := by
    intro token mem kind
    have held : token ∈ scan text := by
      rw [← tokens, Cursor.tokens]
      exact List.mem_append_right _ mem
    exact (isPiece_of_mem_scan held (by rw [kind]; decide)).text_of_mark (by rw [kind]; rfl)
  obtain ⟨more, split, first⟩ := exists_flat opening
  obtain ⟨tail, whole⟩ := Text.trimEnd_isPrefix
    (Payload.Grammar.undecorated false
      (cursor.rest.take (Payload.Grammar.plainLength 0 cursor.rest)))
  rw [← written, kept, split, List.append_assoc] at whole
  have within : ∃ behind, lead ++ behind =
      textOf (cursor.rest.takeWhile fun token =>
        token.kind ∉ [.roundOpen, .lineBreak, .closing]) := by
    rcases List.append_eq_append_iff.mp whole with ⟨behind, same, -⟩ | ⟨behind, same, later⟩
    · exact ⟨behind, same.symm⟩
    · cases behind with
      | nil => exact ⟨[], by rw [same, List.append_nil, List.append_nil]⟩
      | cons c behind =>
          have opens := first c (by rw [later]; rfl)
          exact absurd (by rw [same, opens]; simp) flat
  obtain ⟨behind, same⟩ := within
  constructor
  · obtain ⟨others, split⟩ := List.takeWhile_prefix
      (fun token : Token => decide (token.kind ∉ [.roundOpen, .lineBreak, .closing]))
      (l := cursor.rest)
    refine ⟨behind ++ textOf others, ?_⟩
    rw [← List.append_assoc, same, ← textOf_append, split]
  · intro breaks
    obtain ⟨token, head, kind⟩ := Option.map_eq_some_iff.mp breaks
    obtain ⟨others, stands⟩ := List.head?_eq_some_iff.mp head
    rw [stands, List.takeWhile_cons_of_neg (by simp [kind])] at same
    exact proper (List.append_eq_nil_iff.mp same).1

/-- Behind the padding a plain payload begins neither with padding nor with a line break. -/
theorem firstKind?_written {text : Text} (tokens : cursor.tokens = scan text)
    (firm : cursor.kind? ≠ some .padding) :
    firstKind? (written cursor) ≠ some .padding ∧
    firstKind? (written cursor) ≠ some .lineBreak := by
  have first : cursor.kind? = firstKind? (textOf cursor.rest) := by
    rw [firstKind?, cursor.rest_eq_drop, tokens, scan_textOf_drop, ← tokens, ← cursor.rest_eq_drop]
    rfl
  constructor
  · intro pads
    cases kept : written cursor with
    | nil =>
        rw [kept] at pads
        cases pads
    | cons c rest =>
        rw [kept, firstKind?_cons] at pads
        have padding := isPadding_of_piece (Option.some.inj pads)
        have flat : '(' ∉ [c] := fun mem => by
          rw [← List.mem_singleton.mp mem] at padding
          cases padding
        have begins : written cursor = [c] ++ rest := kept
        obtain ⟨behind, same⟩ :=
          (exists_flat_of_written tokens begins flat (List.cons_ne_nil _ _)).1
        rw [first, same, List.singleton_append, firstKind?, scan_cons_of_padding padding] at firm
        exact firm rfl
  · intro breaks
    obtain ⟨broken, rest, kept, feed⟩ := exists_of_lineBreak breaks
    have plain : '(' ∉ broken ∧ broken ≠ [] := by
      rcases feed with rfl | rfl <;> decide
    obtain ⟨⟨behind, same⟩, other⟩ := exists_flat_of_written tokens kept plain.1 plain.2
    rw [first, same, firstKind?_feed feed] at other
    exact other rfl

end Dialect

end DocComment
