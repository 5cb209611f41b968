import DocComment.Proofs.Reading.Transplant

/-!
# Entries elsewhere

An entry that keeps payloads as they are written takes some tokens and the
padding behind them (`Takes`).  Wherever these tokens stand in front of the end
of a line, the same entry is read up to its span (`run_entry_of_sharing`), with
the exception of tags that end dangling.
-/

namespace DocComment

open Token

namespace Entry

/-- The entry without the place where it stood. -/
def unplaced : Entry → Entry
  | .prose p => .prose { p with span := none }
  | .tag t => .tag { t with span := none }

/-- A tag with a description that is not empty. -/
def IsDescribed : Entry → Prop
  | .prose _ => False
  | .tag t => t.payload.IsDescribed

/-- A tag that names no variable and has a last ampersand for its description. -/
def EndsDangling : Entry → Prop
  | .prose _ => False
  | .tag t => Payload.Grammar.EndsDangling t.payload

end Entry

/-! ## Significant ends -/

namespace Cursor

variable {shared padding : List Token}

/-- The last token of a stretch that is not padding is the last significant one. -/
theorem significantEnd_of_passed {cursor : Cursor} (before : List Token)
    (passed : cursor.passed = (shared ++ padding).reverse ++ before)
    (soft : ∀ token ∈ padding, token.kind = .padding)
    (firm : ∀ token, shared.getLast? = some token → token.kind ≠ .padding) {floor : Nat}
    (low : before.length ≤ floor) (high : floor ≤ before.length + shared.length) :
    cursor.significantEnd floor = before.length + shared.length := by
  have behind : ∀ token ∈ padding.reverse, (token.kind == .padding) = true :=
    fun token mem => beq_iff_eq.mpr (soft token (List.mem_reverse.mp mem))
  have place : cursor.index = before.length + shared.length + padding.length := by
    rw [index, passed, List.length_append, List.length_reverse, List.length_append]
    omega
  have count : ∃ more, (cursor.passed.takeWhile fun token => token.kind == .padding).length =
      padding.length + more ∧
      (shared ≠ [] → more = 0) := by
    rw [passed, List.reverse_append, List.append_assoc, List.takeWhile_append_of_pos behind,
      List.length_append, List.length_reverse]
    refine ⟨_, rfl, fun proper => ?_⟩
    have last := firm _ (List.getLast?_eq_some_getLast proper)
    have split : shared.reverse = shared.getLast proper :: shared.dropLast.reverse := by
      conv => lhs; rw [← List.dropLast_concat_getLast proper, List.reverse_concat]
    rw [split, List.cons_append, List.takeWhile_cons,
      if_neg (fun pads => last (beq_iff_eq.mp pads))]
    rfl
  obtain ⟨more, count, none⟩ := count
  rw [significantEnd, count, place]
  cases shared with
  | nil =>
      rw [List.length_nil] at high ⊢
      omega
  | cons first shared =>
      obtain rfl := none (List.cons_ne_nil _ _)
      omega

theorem Crosses.passed_eq {p : Kind → Prop} {before after : Cursor}
    (crosses : before.Crosses p after)
    {crossed : List Token} (rest : before.rest = crossed ++ after.rest) :
    after.passed = crossed.reverse ++ before.passed := by
  have tokens := crosses.tokens
  rw [Cursor.tokens, Cursor.tokens, rest, ← List.append_assoc, List.append_left_inj] at tokens
  rw [← List.reverse_inj, tokens, List.reverse_append, List.reverse_reverse]

end Cursor

namespace Dialect

open Read Cursor Payload.Grammar

variable {dialect : Dialect} {back back' shared : List Token} {first : Token}
  {here there after : Cursor}
  {item : Entry}

/-! ## Prose -/

/-- A line of prose is what stands in front of the padding at its end. -/
theorem run_prose_of_rest {cursor : Cursor} {padding rest : List Token}
    (stands : cursor.rest = shared ++ (padding ++ rest)) (soft : ArePadding padding)
    (ends : EndLine rest) (firm : ∀ token, shared.getLast? = some token → token.kind ≠ .padding)
    (inline : ∀ token ∈ shared, isInLine token.kind = true) :
    prose cursor = .ok (.prose ⟨Text.trim (textOf shared),
        some (.between cursor.index (cursor.index + shared.length))⟩) cursor.toLineEnd ∧
      cursor.toLineEnd.rest = rest := by
  obtain ⟨taken, behind⟩ := takeWhile_shared stands soft ends inline
  refine ⟨?_, behind⟩
  have passed : cursor.toLineEnd.passed = (shared ++ padding).reverse ++ cursor.passed := by
    rw [← taken]
    rfl
  have stop : cursor.toLineEnd.significantEnd cursor.index = cursor.index + shared.length :=
    significantEnd_of_passed cursor.passed passed (fun token mem => (soft token mem).1) firm
      (Nat.le_refl _) (Nat.le_add_right _ _)
  have text : (Span.between cursor.index (cursor.index + shared.length)).textIn cursor.tokens =
      textOf shared := by
    rw [Span.textIn, Span.between_start, Span.between_stop, Nat.max_eq_right (Nat.le_add_right _ _),
      textBetween, List.drop_take, Nat.add_sub_cancel_left, ← cursor.rest_eq_drop, stands,
      List.take_left]
  cases run : prose cursor with
  | error failure after => cases run
  | ok item after =>
      obtain ⟨rfl, span, rfl, rfl⟩ := prose_eq_ok run
      rw [stop, text]

theorem run_prose_of_sharing (ends : Ends back back')
    (sharing : Sharing back back' shared here there)
    (run : prose here = .ok item after) (ended : after.rest = back) :
    ∃ item' after', prose there = .ok item' after' ∧ item'.unplaced = item.unplaced ∧
      after'.rest = back' := by
  obtain ⟨padding, soft, rest⟩ := sharing.near
  obtain ⟨padding', soft', rest'⟩ := sharing.far
  have inline : ∀ token ∈ shared, isInLine token.kind = true := by
    obtain ⟨rfl, -⟩ := prose_eq_ok run
    have split :=
      List.takeWhile_append_dropWhile (p := fun token => isInLine token.kind) (l := here.rest)
    have dropped : here.rest.dropWhile (fun token => isInLine token.kind) = back := ended
    rw [dropped, rest, ← List.append_assoc, List.append_left_inj] at split
    intro token mem
    have within : token ∈ here.rest.takeWhile fun token => isInLine token.kind := by
      rw [rest, ← List.append_assoc, split]
      exact List.mem_append_left _ mem
    exact List.mem_takeWhile_imp (p := fun token : Token => isInLine token.kind) within
  obtain ⟨near, -⟩ := run_prose_of_rest rest soft ends.near sharing.firm inline
  obtain ⟨far, behind⟩ := run_prose_of_rest rest' soft' ends.far sharing.firm inline
  rw [near] at run
  cases run
  exact ⟨_, _, far, rfl, behind⟩

/-! ## Tags -/

theorem run_tagName_eq (cursor : Cursor) :
    tagName dialect cursor =
      if cursor.step.isAt .name && dialect.claims (cursor.text ++ cursor.step.text) then
        .ok (cursor.text ++ cursor.step.text) cursor.step.advance
      else .ok cursor.text cursor.step.skipPadding := by
  rw [tagName, run_get_bind, run_bind_of_ok (run_step cursor), run_get_bind]
  split
  · rfl
  · rfl

/-- A tag has the same name elsewhere. -/
theorem run_tagName_of_sharing (ends : Ends back back')
    (sharing : Sharing back back' (first :: shared) here there) :
    ∃ name more here' there', tagName dialect here = .ok name here' ∧
      tagName dialect there = .ok name there' ∧
      Abreast back back' more here' there' := by
  obtain ⟨padding, -, rest⟩ := sharing.near
  obtain ⟨padding', -, rest'⟩ := sharing.far
  have beside := sharing.step
  rw [run_tagName_eq, run_tagName_eq, text_of_rest rest, text_of_rest rest']
  rcases beside.isAt_or ends .name rfl with ⟨near, far⟩ | ⟨glued, more, rfl, -, near, far⟩
  · rw [near, far]
    exact ⟨_, _, _, _, rfl, rfl, beside.skipPadding ends⟩
  · have near' : here.step.text = glued.text := text_of_rest (rest_step rest)
    have far' : there.step.text = glued.text := text_of_rest (rest_step rest')
    rw [near, far, near', far']
    split
    · exact ⟨_, _, _, _, rfl, rfl, beside.advance ends⟩
    · exact ⟨_, _, _, _, rfl, rfl, beside.skipPadding ends⟩

theorem run_genericPayload_of_abreast (closes : Closes back back')
    (abreast : Abreast back back' shared here there)
    {tag : Text} {found : Payload} (run : genericPayload dialect tag here = .ok found after)
    (ended : after.rest = back) :
    ∃ after', genericPayload dialect tag there = .ok found after' ∧ Reached back back' after' := by
  obtain ⟨text, middle, ran, run⟩ := bind_eq_ok.mp run
  have same : middle = after ∧ dialect.plainOrAnnotation tag text = .ok found := by
    cases resolved : dialect.plainOrAnnotation tag text with
    | ok payload =>
        rw [resolved] at run
        cases run
        exact ⟨rfl, rfl⟩
    | error failure =>
        rw [resolved] at run
        cases run
  obtain ⟨rfl, resolved⟩ := same
  obtain ⟨after', ran', reached⟩ := run_plainText_of_sharing closes abreast.toSharing ran ended
  refine ⟨after', ?_, reached⟩
  rw [genericPayload, run_bind_of_ok ran', resolved]
  rfl

section Specific

variable {tag : Text} {cursor : Cursor}

theorem run_specificPayload_of_rule {names : List Text}
    (claimed : dialect.rule? tag = some (.verbatim names))
    {text : Text} (run : plainText cursor = .ok text after) :
    specificPayload dialect tag cursor = .ok (some (.plain text, none)) after := by
  have kept : (TagRule.verbatim names).payload cursor = .ok (.plain text) after :=
    run_bind_of_ok run
  have tried : attempt (TagRule.verbatim names).payload cursor =
      .ok (some (.plain text)) after := by
    rw [attempt, kept]
  rw [specificPayload, claimed]
  dsimp only
  rw [run_bind_of_ok tried]
  rfl

theorem specificPayload_of_kind (free : dialect.rule? tag = none) {kind : Subject.Kind}
    (typed : Subject.Kind.ofTagName? tag = some kind) :
    specificPayload dialect tag = attempt (typedWithWording kind) := by
  rw [specificPayload, free, typed]

theorem specificPayload_of_none (free : dialect.rule? tag = none)
    (untyped : Subject.Kind.ofTagName? tag = none) : specificPayload dialect tag = pure none := by
  rw [specificPayload, free, untyped]

theorem run_payload_of_specific {found : Payload × Option Text}
    (run : specificPayload dialect tag cursor = .ok (some found) after) :
    payload dialect tag cursor = .ok found after := by
  rw [payload, run_bind_of_ok run]
  rfl

/-- Where no rule and no grammar fits, the payload is read as it is written. -/
theorem run_payload_of_generic {middle : Cursor}
    (none : specificPayload dialect tag cursor = .ok none middle) :
    payload dialect tag cursor =
      (do return (← genericPayload dialect tag, .none) : Read _) middle := by
  rw [payload, run_bind_of_ok none]

end Specific

theorem run_payload_of_unfit (closes : Closes back back')
    (abreast : Abreast back back' shared here there)
    {tag : Text} (near : specificPayload dialect tag here = .ok none here)
    (far : specificPayload dialect tag there = .ok none there) {found : Payload × Option Text}
    (run : payload dialect tag here = .ok found after) (ended : after.rest = back) :
    ∃ after', payload dialect tag there = .ok found after' ∧ Reached back back' after' := by
  rw [run_payload_of_generic near] at run
  obtain ⟨content, last, ran, finished⟩ := bind_eq_ok.mp run
  cases finished
  obtain ⟨after', ran', reached⟩ := run_genericPayload_of_abreast closes abreast ran ended
  refine ⟨after', ?_, reached⟩
  rw [run_payload_of_generic far, run_bind_of_ok ran']
  rfl

/-- A payload is settled by the tokens that it takes up, unless it ends dangling. -/
theorem follows_payload (verbatim : dialect.OnlyVerbatim) (closes : Closes back back')
    (abreast : Abreast back back' shared here there)
    (marks : ∀ token ∈ here.rest, token.kind = .ampersand → token.text = ['&']) {tag : Text}
    {found : Payload × Option Text} (run : payload dialect tag here = .ok found after)
    (ended : after.rest = back) :
    Follows back back' (found.1.IsDescribed → Halts back back') (· = found)
      (payload dialect tag there) ∨
      back = [] ∧ EndsDangling found.1 := by
  cases claimed : dialect.rule? tag with
  | some rule =>
      obtain ⟨names, rfl⟩ := verbatim rule (mem_of_rule? claimed)
      obtain ⟨text, ran⟩ := run_plainText here
      rw [run_payload_of_specific (run_specificPayload_of_rule claimed ran)] at run
      cases run
      obtain ⟨after', ran', reached⟩ := run_plainText_of_sharing closes abreast.toSharing ran ended
      exact .inl
        (.of_reached (run_payload_of_specific (run_specificPayload_of_rule claimed ran'))
          reached rfl)
  | none =>
      cases typed : Subject.Kind.ofTagName? tag with
      | none =>
          have unfit (cursor : Cursor) : specificPayload dialect tag cursor = .ok none cursor := by
            rw [specificPayload_of_none claimed typed]
            rfl
          obtain ⟨after', ran', reached⟩ :=
            run_payload_of_unfit closes abreast (unfit here) (unfit there) run ended
          exact .inl (.of_reached ran' reached rfl)
      | some kind =>
          have specific := specificPayload_of_kind claimed typed
          have unfit {cursor stop : Cursor} {failure : Failure}
              (ran : typedWithWording kind cursor = .error failure stop) :
              specificPayload dialect tag cursor = .ok none cursor := by
            rw [specific, attempt, ran]
          have fit {cursor stop : Cursor} {content : Payload × Option Text}
              (ran : typedWithWording kind cursor = .ok content stop) :
              payload dialect tag cursor = .ok content stop := by
            refine run_payload_of_specific ?_
            rw [specific, attempt, ran]
          cases ran : typedWithWording kind here with
          | ok content stop =>
              rw [fit ran] at run
              cases run
              refine (follows_typedWithWording closes.toEnds kind abreast marks ran ended).imp_left ?_
              rintro ⟨content', middle, after', ran', followed⟩
              exact ⟨content', middle, after', fit ran', followed⟩
          | error failure stop =>
              obtain ⟨failure', stop', ran'⟩ :=
                run_typedWithWording_error closes.toEnds kind abreast ran
              obtain ⟨after', ran'', reached⟩ :=
                run_payload_of_unfit closes abreast (unfit ran) (unfit ran') run ended
              exact .inl (.of_reached ran'' reached rfl)

/-! ## Entries -/

/-- A tag is settled by the tokens that it takes up, unless it ends dangling. -/
theorem follows_tag (verbatim : dialect.OnlyVerbatim) (closes : Closes back back')
    (sharing : Sharing back back' (first :: shared) here there)
    (marks : ∀ token ∈ here.rest, token.kind = .ampersand → token.text = ['&'])
    (run : tag dialect here = .ok item after) (ended : after.rest = back) :
    Follows back back' (item.IsDescribed → Halts back back') (·.unplaced = item.unplaced)
      (tag dialect there) ∨
      back = [] ∧ item.EndsDangling := by
  obtain ⟨name, behind, content, read, named, taken, rfl, moved⟩ := tag_eq_ok run
  have ends := isAtLineEnd_of_payload verbatim taken
  rw [tagStop_eq ends, if_neg (Nat.not_lt.mpr (significantEnd_le _ _))] at moved
  subst moved
  obtain ⟨name', more, here', there', near, far, abreast⟩ :=
    run_tagName_of_sharing closes.toEnds sharing
  rw [named] at near
  cases near
  have still : ∀ token ∈ behind.rest, token.kind = .ampersand → token.text = ['&'] := by
    obtain ⟨padding, -, rest⟩ := sharing.near
    have crossed := (crosses_step (p := fun _ => True) here fun _ _ => trivial).trans
      ((crosses_tagName named).mono fun _ _ => trivial)
    obtain ⟨taken, split, -⟩ := crossed.exists_crossed
    exact fun token mem => marks token (split ▸ List.mem_append_right taken mem)
  refine (follows_payload verbatim closes abreast still taken ended).imp_left ?_
  rintro ⟨content', middle, after', taken', reached, goesOn, same⟩
  obtain ⟨span, run'⟩ := run_tag_of_payload far taken' (isAtLineEnd_of_payload verbatim taken')
  refine ⟨_, middle, after', run', reached, goesOn, fun halts => ?_⟩
  obtain ⟨rfl, stopped⟩ := same halts
  exact ⟨rfl, stopped⟩

/--
An entry is settled by the tokens that it takes up: elsewhere the same entry is
read from them, unless it ends dangling, or goes on with its description.
-/
theorem follows_entry (verbatim : dialect.OnlyVerbatim) (closes : Closes back back')
    (sharing : Sharing back back' shared here there)
    (marks : ∀ token ∈ here.rest, token.kind = .ampersand → token.text = ['&'])
    (run : entry dialect here = .ok item after) (ended : after.rest = back) :
    Follows back back' (item.IsDescribed → Halts back back') (·.unplaced = item.unplaced)
      (entry dialect there) ∨
      back = [] ∧ item.EndsDangling := by
  rw [entry, run_get_bind, sharing.isAt_eq closes.toEnds .tag rfl] at run
  rw [entry, run_get_bind]
  split at run
  next stands =>
    rw [if_pos stands]
    cases shared with
    | nil =>
        obtain ⟨padding', soft', rest'⟩ := sharing.far
        have apart : there.isAt .tag = false :=
          isAt_eq_false_of_head? (rest' ▸ fun _ => kind_of_head? soft' closes.far) rfl
        rw [apart] at stands
        cases stands
    | cons first shared => exact follows_tag verbatim closes sharing marks run ended
  next other =>
    rw [if_neg other]
    obtain ⟨item', after', run', same, ended'⟩ :=
      run_prose_of_sharing closes.toEnds sharing run ended
    exact .inl (.of_reached run' (.inl ended') same)

/-- Where no description goes on, the same entry is read, unless it ends dangling. -/
theorem run_entry_of_sharing (verbatim : dialect.OnlyVerbatim) (closes : Closes back back')
    (sharing : Sharing back back' shared here there)
    (marks : ∀ token ∈ here.rest, token.kind = .ampersand → token.text = ['&'])
    (halts : item.IsDescribed → Halts back back')
    (run : entry dialect here = .ok item after) (ended : after.rest = back) :
    (∃ item' after', entry dialect there = .ok item' after' ∧ item'.unplaced = item.unplaced ∧
      Reached back back' after') ∨ back = [] ∧ item.EndsDangling := by
  refine (follows_entry verbatim closes sharing marks run ended).imp_left ?_
  rintro ⟨item', middle, after', ran, reached, -, same⟩
  obtain ⟨unplaced, rfl⟩ := same halts
  exact ⟨item', after', ran, unplaced, reached⟩

/-! ## What an entry covers -/

/-- An entry takes the tokens of its span and the padding behind them, up to the end of its line. -/
structure Covers (before after : Cursor) (item : Entry) (shared padding : List Token) : Prop where
  rest : before.rest = shared ++ (padding ++ after.rest)
  soft : ∀ token ∈ padding, token.kind = .padding
  firm : ∀ token, shared.getLast? = some token → token.kind ≠ .padding
  unclosed : ∀ token ∈ shared, token.kind ≠ .closing
  ends : EndLine after.rest
  span? : item.span? = some (.between before.index (before.index + shared.length))

namespace Covers

variable {before : Cursor} {text : Text} {shared padding : List Token}

theorem arePadding (covers : Covers before after item shared padding)
    (tokens : before.tokens = scan text) :
    ArePadding padding := by
  intro token mem
  have held : token ∈ scan text := by
    rw [← tokens, Cursor.tokens, covers.rest]
    exact List.mem_append_right _ (List.mem_append_right _ (List.mem_append_left _ mem))
  exact ⟨covers.soft token mem,
    (isPiece_of_mem_scan held (by rw [covers.soft token mem]; decide)).text_of_padding
    (covers.soft token mem)⟩

/-- The span of an entry holds the text of its tokens. -/
theorem textIn_eq (covers : Covers before after item shared padding) {span : Span}
    (span? : item.span? = some span) : span.textIn before.tokens = textOf shared := by
  have split := before.rest_eq_drop
  rw [covers.rest] at split
  cases covers.span?.symm.trans span?
  rw [Span.textIn, Span.between_start, Span.between_stop, Nat.max_eq_right (Nat.le_add_right _ _),
    textBetween, List.drop_take, Nat.add_sub_cancel_left, ← split, List.take_left]

end Covers

/-- Where an entry fills its line, its span is the stretch up to the last significant token. -/
theorem covers_of_fills {before : Cursor} {span : Span} (fills : Fills before after item span)
    (spans : ∀ shared padding, before.rest = shared ++ (padding ++ after.rest) →
      (∀ token ∈ padding, token.kind = .padding) → ∃ floor, before.index ≤ floor ∧
        floor ≤ before.index + shared.length ∧
          item.span? = some (.between before.index (after.significantEnd floor))) :
    ∃ shared padding, Covers before after item shared padding := by
  obtain ⟨crossed, rest, unclosed⟩ := fills.crosses.exists_crossed
  obtain ⟨shared, padding, rfl, soft, firm⟩ := exists_firm crossed
  have passed := fills.crosses.passed_eq rest
  rw [List.append_assoc] at rest
  obtain ⟨floor, low, high, span?⟩ := spans shared padding rest soft
  rw [significantEnd_of_passed before.passed passed soft firm low high] at span?
  refine ⟨shared, padding, ⟨rest, soft, firm, ?_, ?_, span?⟩⟩
  · exact fun token mem => unclosed token (List.mem_append_left _ mem)
  · exact fun token head => isAtLineEnd_iff.mp fills.ends _ (by rw [kind?, head]; rfl)

theorem covers_of_entry (verbatim : dialect.OnlyVerbatim) {before : Cursor}
    (run : entry dialect before = .ok item after) :
    ∃ shared padding, Covers before after item shared padding := by
  rcases entry_eq_ok run with ⟨stands, run⟩ | ⟨-, run⟩
  · obtain ⟨span, fills⟩ := fills_of_tag verbatim stands run
    obtain ⟨name, behind, content, read, named, taken, rfl, moved⟩ := tag_eq_ok run
    have ends := isAtLineEnd_of_payload verbatim taken
    rw [tagStop_eq ends] at moved fills ⊢
    rw [if_neg (Nat.not_lt.mpr (significantEnd_le _ _))] at moved
    subst moved
    refine covers_of_fills fills fun shared padding rest soft =>
      ⟨before.index + 1, Nat.le_succ _, ?_, rfl⟩
    cases shared with
    | cons first shared => exact Nat.add_le_add_left (Nat.succ_le_succ (Nat.zero_le _)) _
    | nil =>
        rw [List.nil_append] at rest
        cases padding with
        | nil =>
            have ahead := index_lt_of_tagName stands named
            have later :=
              ((crosses_payload (fun _ same => same) verbatim.crosses name behind).of_ok
                  taken).index_le
            have same := congrArg List.length rest
            rw [List.nil_append, length_rest, length_rest, fills.crosses.tokens] at same
            have within := after.index_le_length
            rw [fills.crosses.tokens] at within
            omega
        | cons pad padding =>
            rw [isAt_of_rest rest, soft pad List.mem_cons_self] at stands
            cases stands
  · obtain ⟨span, fills⟩ := fills_of_prose run
    obtain ⟨rfl, found, rfl, rfl⟩ := prose_eq_ok run
    exact covers_of_fills fills fun shared padding _ _ =>
      ⟨before.index, Nat.le_refl _, Nat.le_add_right _ _, rfl⟩

end Dialect

end DocComment
