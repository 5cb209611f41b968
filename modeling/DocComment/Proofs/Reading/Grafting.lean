import DocComment.Proofs.Reading.Alone
import DocComment.Proofs.Reading.Exchange

/-!
# Entries in front of another ending

The entries of a comment are read again when something else stands behind the
last of them, as long as a line ends there and no description goes on
(`Heads.graft`).  So more entries may be written behind them.
-/

namespace DocComment

open Token

namespace Payload.Grammar

open Cursor

/-- Whether a description goes on is seen from what remains. -/
theorem continues_congr {here there : Cursor} (same : here.rest = there.rest) :
    continues here = continues there := by
  have kind : here.kind? = there.kind? := by rw [kind?, kind?, same]
  have behind : here.advance.kind? = there.advance.kind? := by
    obtain ⟨passed, rest⟩ := here
    obtain ⟨passed', rest'⟩ := there
    cases same
    cases rest <;> rfl
  rw [continues, continues, isAt, isAt, kind, behind]

end Payload.Grammar

namespace Cursor

open Payload.Grammar

variable {back back' shared : List Token} {here there : Cursor}

/-! ## Side by side over lines -/

/-- The ends of lines behind the last entry, where each of two comments goes on in its own way. -/
structure Joint (back back' : List Token) : Prop extends Closes back back' where
  broken : ∃ token, back.head? = some token ∧ token.kind = .lineBreak
  broken' : ∃ token, back'.head? = some token ∧ token.kind = .lineBreak
  halts : Halts back back'

/-- Two cursors in front of the same tokens, or both at the ends of lines behind them. -/
structure Joined (back back' shared : List Token) (here there : Cursor) : Prop
    extends Sharing back back' shared here there where
  ended : shared = [] → here.rest = back ∧ there.rest = back'

theorem Abreast.joined (abreast : Abreast back back' shared here there) :
    Joined back back' shared here there :=
  { abreast with }

theorem isAtEnd_eq (cursor : Cursor) : cursor.isAtEnd = cursor.kind?.isNone := by
  obtain ⟨passed, rest⟩ := cursor
  cases rest <;> rfl

/-- Nothing or the closing marker remains where a comment closes. -/
theorem isAtClose_iff {cursor : Cursor} :
    cursor.isAtClose = true ↔ ∀ token, cursor.rest.head? = some token → token.kind = .closing := by
  obtain ⟨passed, rest⟩ := cursor
  cases rest with
  | nil => simp [isAtClose, isAtEnd]
  | cons token rest => simp [isAtClose, isAtEnd, isAt, kind?]

/-- A token that stands at a cursor, the padding behind it and what remains then. -/
theorem exists_advance {cursor : Cursor} {kind : Kind} (stands : cursor.isAt kind = true) :
    ∃ first gap, cursor.rest = first :: (gap ++ cursor.advance.rest) ∧ first.kind = kind ∧
      ∀ token ∈ gap, token.kind = .padding := by
  obtain ⟨passed, rest⟩ := cursor
  cases rest with
  | nil => cases stands
  | cons first rest =>
      refine ⟨first, rest.takeWhile fun token => token.kind == .padding, ?_, ?_,
        fun token mem => ?_⟩
      · exact congrArg _ List.takeWhile_append_dropWhile.symm
      · exact Option.some.inj (beq_iff_eq.mp stands)
      · exact beq_iff_eq.mp
          (List.mem_takeWhile_imp (p := fun token : Token => token.kind == .padding) mem)

/-- Behind a token and padding a cursor stands in front of what follows. -/
theorem rest_advance {cursor : Cursor} {first : Token} {gap more : List Token}
    (rest : cursor.rest = first :: (gap ++ more)) (soft : ∀ token ∈ gap, token.kind = .padding)
    (firm : ∀ token, more.head? = some token → token.kind ≠ .padding) :
    cursor.advance.rest = more := by
  obtain ⟨passed, remains⟩ := cursor
  cases rest
  change (gap ++ more).dropWhile (fun token => token.kind == .padding) = more
  rw [List.dropWhile_append_of_pos fun token mem => beq_iff_eq.mpr (soft token mem)]
  cases more with
  | nil => rfl
  | cons next more =>
      rw [List.dropWhile_cons_of_neg]
      exact fun pads => firm next rfl (beq_iff_eq.mp pads)

/-- A token is among what remains in front of what remains behind it. -/
theorem exists_rest_advance {cursor : Cursor} {kind : Kind} (stands : cursor.kind? = some kind) :
    ∃ taken, cursor.rest = taken ++ cursor.advance.rest ∧ taken ≠ [] := by
  have crosses : cursor.Crosses (fun _ => True) cursor.advance :=
    cursor.crosses_advance trivial fun _ _ => trivial
  obtain ⟨taken, rest, -⟩ := crosses.exists_crossed
  refine ⟨taken, rest, fun empty => ?_⟩
  have beyond := index_lt_advance stands
  have same := congrArg List.length rest
  have within := cursor.advance.index_le_length
  rw [empty, List.nil_append, length_rest, length_rest, cursor.tokens_advance] at same
  rw [cursor.tokens_advance] at within
  omega

namespace Joined

variable (joint : Joint back back') (joined : Joined back back' shared here there)
include joint joined

theorem kind?_eq : here.kind? = there.kind? := by
  cases shared with
  | nil =>
      obtain ⟨near, far⟩ := joined.ended rfl
      obtain ⟨token, head, kind⟩ := joint.broken
      obtain ⟨token', head', kind'⟩ := joint.broken'
      rw [kind?, kind?, near, far, head, head', Option.map_some, Option.map_some, kind, kind']
  | cons first shared =>
      obtain ⟨padding, -, rest⟩ := joined.near
      obtain ⟨padding', -, rest'⟩ := joined.far
      rw [kind?, kind?, rest, rest']
      rfl

theorem isAt_eq (kind : Kind) : here.isAt kind = there.isAt kind := by
  rw [isAt, isAt, joined.kind?_eq joint]

theorem isAtClose_eq : here.isAtClose = there.isAtClose := by
  rw [isAtClose, isAtClose, joined.isAt_eq joint, isAtEnd_eq, isAtEnd_eq, joined.kind?_eq joint]

/-- Within what they share two cursors are joined behind a token and its padding. -/
theorem advance (ahead : ∃ taken, taken ≠ [] ∧ here.rest = taken ++ back) :
    ∃ more, Joined back back' more here.advance there.advance := by
  cases shared with
  | nil =>
      obtain ⟨taken, proper, rest⟩ := ahead
      rw [(joined.ended rfl).1] at rest
      exact absurd (List.self_eq_append_left.mp rest) proper
  | cons first shared => exact ⟨_, (joined.toSharing.step.skipPadding joint.toEnds).joined⟩

end Joined

end Cursor

namespace Dialect

open Read Cursor Payload.Grammar

variable {dialect : Dialect} {cursor here there after last : Cursor} {item : Entry}
  {items later : List Entry}
  {text : Text} {back back' shared : List Token}

/-- Entries that are read between two ends of lines, each behind a line break. -/
inductive Passes (dialect : Dialect) : Cursor → List Entry → Cursor → Prop
  | stays (cursor : Cursor) : Passes dialect cursor [] cursor
  | next {cursor after last : Cursor} {item : Entry} {items : List Entry} (broken : cursor.isAt .lineBreak = true)
      (opens : cursor.advance.isAtClose = false) (run : entry dialect cursor.advance = .ok item after)
      (later : Passes dialect after items last) : Passes dialect cursor (item :: items) last

namespace Passes

theorem trail (passes : Passes dialect cursor items last) (trail : Trail dialect last later) :
    Trail dialect cursor (items ++ later) := by
  induction passes with
  | stays => exact trail
  | next broken opens run _ ih => exact .next broken opens run (ih trail)

theorem exists_of_trail (trail : Trail dialect cursor items) :
    ∃ last, Passes dialect cursor items last ∧ Trail dialect last [] := by
  induction trail with
  | closed closes => exact ⟨_, .stays _, .closed closes⟩
  | ended broken closes => exact ⟨_, .stays _, .ended broken closes⟩
  | next broken opens run _ ih =>
      obtain ⟨last, passes, ended⟩ := ih
      exact ⟨last, .next broken opens run passes, ended⟩

/-- What remains at the last end of a line is a part of what remained before. -/
theorem exists_rest (verbatim : dialect.OnlyVerbatim) (passes : Passes dialect cursor items last) :
    ∃ taken, cursor.rest = taken ++ last.rest ∧ (items ≠ [] → taken ≠ []) := by
  induction passes with
  | stays cursor => exact ⟨[], rfl, fun proper => absurd rfl proper⟩
  | @next cursor after last item items broken opens run _ ih =>
      obtain ⟨taken, rest, -⟩ := ih
      obtain ⟨span, fills⟩ := fills_of_entry verbatim run
      obtain ⟨crossed, split, -⟩ := fills.crosses.exists_crossed
      obtain ⟨lead, whole, proper⟩ := exists_rest_advance (beq_iff_eq.mp broken)
      refine ⟨lead ++ (crossed ++ taken), ?_, fun _ => List.append_ne_nil_of_left_ne_nil proper _⟩
      rw [whole, split, rest]
      simp only [List.append_assoc]

end Passes

/-! ## Entries -/

/-- The end of a line lies among the shared tokens, since it is no padding. -/
theorem exists_of_shared {own pads padding taken : List Token} {first : Token}
    (soft : ArePadding padding) (firm : first.kind ≠ .padding)
    (whole : shared ++ (padding ++ back) = own ++ (pads ++ (first :: taken ++ back))) :
    ∃ more, shared = own ++ (pads ++ first :: more) ∧ taken = more ++ padding := by
  rw [← List.append_assoc, ← List.append_assoc pads, ← List.append_assoc own] at whole
  have same := List.append_cancel_right whole
  rw [← List.append_assoc own] at same
  have outside : first ∉ padding := fun mem => firm (soft first mem).1
  rcases List.append_eq_append_iff.mp same with ⟨between, lead, rest⟩ | ⟨between, rfl, rest⟩
  · rw [rest] at outside
    simp at outside
  · cases between with
    | nil =>
        rw [List.nil_append] at rest
        exact absurd (rest ▸ List.mem_cons_self) outside
    | cons other more =>
        obtain ⟨rfl, rfl⟩ := List.cons.inj rest
        exact ⟨more, List.append_assoc _ _ _, rfl⟩

/-- Tokens that begin with the same end of a line close what is in front of them. -/
theorem closes_cons {first : Token} (ends : first.kind = .lineBreak ∨ first.kind = .closing)
    (near far : List Token) :
    Closes (first :: near) (first :: far) where
  near := by
    rintro token ⟨⟩
    exact ends
  far := by
    rintro token ⟨⟩
    exact ends
  proper := List.cons_ne_nil _ _
  encloses := by
    rcases ends with broken | closed
    · exact .inl ⟨first, rfl, broken⟩
    · exact .inr (.inl ⟨first, rfl, closed⟩)

/-- Where tokens are shared a description goes on alike. -/
theorem halts_of_sharing (ends : Ends back back') {first : Token} {more near far : List Token}
    (shares : ∀ cursor cursor' : Cursor, cursor.rest = near → cursor'.rest = far →
      Sharing back back' (first :: more) cursor cursor') : Halts near far := by
  intro cursor cursor' stands stands' stopped
  have abreast : Abreast back back' (first :: more) ⟨[], cursor.rest⟩ ⟨[], cursor'.rest⟩ :=
    { shares _ _ stands stands' with padded := fun _ => rfl, ended := nofun }
  rw [← stopped, continues_congr (show cursor'.rest = (⟨[], cursor'.rest⟩ : Cursor).rest from rfl),
    ← continues_eq ends abreast]
  exact continues_congr rfl

section Joined

variable (verbatim : dialect.OnlyVerbatim) (joint : Joint back back')
include verbatim joint

/-- An entry is read again, and behind it the two cursors are joined. -/
theorem entry_of_joined (joined : Joined back back' shared here there)
    (pieces : ArePieces here.tokens)
    (run : entry dialect here = .ok item after) (ahead : ∃ taken, after.rest = taken ++ back) :
    ∃ item' after' more, entry dialect there = .ok item' after' ∧ item'.unplaced = item.unplaced ∧
      Joined back back' more after after' := by
  have marks :=
    ArePieces.marks fun token mem => pieces token (List.mem_append_right here.passed.reverse mem)
  obtain ⟨own, pads, covers⟩ := covers_of_entry verbatim run
  obtain ⟨padding, soft, near⟩ := joined.near
  obtain ⟨padding', soft', far⟩ := joined.far
  obtain ⟨taken, reached⟩ := ahead
  cases taken with
  | nil =>
      obtain ⟨token, head, kind⟩ := joint.broken
      rcases run_entry_of_sharing verbatim joint.toCloses joined.toSharing marks
          (fun _ => joint.halts) run reached with
        ⟨item', after', ran, same, whole | ⟨unbroken, -⟩⟩ | ⟨empty, -⟩
      · exact ⟨item', after', [], ran, same, (Abreast.of_rest reached whole).joined⟩
      · exact absurd kind (unbroken token head)
      · rw [empty] at head
        cases head
  | cons first taken =>
      have ends := covers.ends first (by rw [reached]; rfl)
      obtain ⟨more, split, rfl⟩ :
          ∃ more, shared = own ++ (pads ++ first :: more) ∧ taken = more ++ padding := by
        refine exists_of_shared soft (fun pads => ?_) (near.symm.trans (reached ▸ covers.rest))
        rw [pads] at ends
        rcases ends with ends | ends <;> cases ends
      have soft'' : ArePadding pads := (show ArePieces here.rest from fun token mem =>
        pieces token (List.mem_append_right here.passed.reverse mem)).arePadding
          (fun token mem => covers.rest ▸ List.mem_append_right _ (List.mem_append_left _ mem))
          covers.soft
      have sharing : Sharing after.rest (first :: more ++ (padding' ++ back')) own here there := by
        refine { near := ⟨pads, soft'', covers.rest⟩, far := ⟨pads, soft'', ?_⟩, firm := covers.firm }
        rw [far, split]
        simp only [List.append_assoc, List.cons_append]
      have closes : Closes after.rest (first :: more ++ (padding' ++ back')) :=
        reached ▸ closes_cons ends _ _
      have firm : ∀ token, (first :: more).getLast? = some token →
          token.kind ≠ .padding := fun token last =>
        joined.firm token
          (by rw [split, ← List.append_assoc, List.getLast?_append_of_ne_nil _ (by simp), last])
      have behind (cursor cursor' : Cursor) (stands : cursor.rest = after.rest)
          (stands' : cursor'.rest = first :: more ++ (padding' ++ back')) :
          Sharing back back' (first :: more) cursor cursor' := by
        refine { near := ⟨padding, soft, ?_⟩, far := ⟨padding', soft', stands'⟩, firm }
        rw [stands, reached, List.cons_append, List.append_assoc, List.cons_append]
      rcases run_entry_of_sharing verbatim closes sharing marks
          (fun _ => halts_of_sharing joint.toEnds behind) run rfl with
        ⟨item', after', ran, same, whole | ⟨unbroken, broken, split', kind, -⟩⟩ | ⟨empty, -⟩
      · exact ⟨item', after', first :: more, ran, same,
          { behind after after' rfl whole with ended := nofun }⟩
      · obtain ⟨rfl, -⟩ := List.cons.inj split'
        exact absurd kind (unbroken first (by rw [reached]; rfl))
      · rw [reached] at empty
        cases empty

/-- All entries up to the last end of a line are read again. -/
theorem Passes.graft (passes : Passes dialect here items last) (ended : last.rest = back)
    (joined : Joined back back' shared here there) (pieces : ArePieces here.tokens) :
    ∃ items' last', Passes dialect there items' last' ∧ last'.rest = back' ∧
      items'.map Entry.unplaced = items.map Entry.unplaced := by
  induction passes generalizing shared there with
  | stays cursor =>
      obtain ⟨padding, -, near⟩ := joined.near
      rw [ended, ← List.append_assoc] at near
      have empty := (List.append_eq_nil_iff.mp (List.self_eq_append_left.mp near)).1
      exact ⟨[], there, .stays there, (joined.ended empty).2, rfl⟩
  | @next here after last item items broken opens run later ih =>
      obtain ⟨taken, rest, proper⟩ := (Passes.next broken opens run later).exists_rest verbatim
      obtain ⟨behind, remains, -⟩ := later.exists_rest verbatim
      rw [ended] at rest remains
      obtain ⟨_, line⟩ := joined.advance joint ⟨taken, proper (List.cons_ne_nil _ _), rest⟩
      have tokens := here.tokens_advance
      obtain ⟨item', after', _, ran, same, joined'⟩ :=
        entry_of_joined verbatim joint line (tokens ▸ pieces) run ⟨behind, remains⟩
      obtain ⟨span, fills⟩ := fills_of_entry verbatim run
      obtain ⟨items', last', passes', ended', others⟩ :=
        ih ended joined' (fills.crosses.tokens.trans tokens ▸ pieces)
      refine ⟨item' :: items', last', ?_,
        ended', by rw [List.map_cons, List.map_cons, same, others]⟩
      exact .next (joined.isAt_eq joint .lineBreak ▸ broken)
        (line.isAtClose_eq joint ▸ opens) ran passes'

/-- The entries of a comment are read again in front of others. -/
theorem Heads.graft {first after : Cursor} (opens : first.isAtClose = false)
    (run : entry dialect first = .ok item after) (passes : Passes dialect after items last)
    (ended : last.rest = back) (pieces : ArePieces first.tokens)
    (joined : Joined back back' shared first there) {p : List Entry → Prop}
    (reads : ∀ cursor, cursor.rest = back' → ∃ later, Trail dialect cursor later ∧ p later) :
    ∃ found later, found.map Entry.unplaced = (item :: items).map Entry.unplaced ∧
      Heads dialect there (found ++ later) ∧ p later := by
  obtain ⟨behind, remains, -⟩ := passes.exists_rest verbatim
  rw [ended] at remains
  obtain ⟨item', after', _, ran, same, joined'⟩ :=
    entry_of_joined verbatim joint joined pieces run ⟨behind, remains⟩
  obtain ⟨span, fills⟩ := fills_of_entry verbatim run
  obtain ⟨items', last', passes', ended', others⟩ :=
    passes.graft verbatim joint ended joined' (fills.crosses.tokens ▸ pieces)
  obtain ⟨later, trail, holds⟩ := reads last' ended'
  refine ⟨item' :: items', later, by rw [List.map_cons, List.map_cons, same, others], ?_, holds⟩
  exact .first (joined.isAtClose_eq joint ▸ opens) ran (passes'.trail trail)

omit verbatim in
/-- Texts with the same tokens put the first entry at the same place among them. -/
theorem joined_firstPlace {text text' : Text} {padding padding' : List Token}
    (near : scan text = shared ++ (padding ++ back))
    (far : scan text' = shared ++ (padding' ++ back'))
    (soft : ArePadding padding) (soft' : ArePadding padding')
    (firm : ∀ token, shared.getLast? = some token → token.kind ≠ .padding)
    (opens : (ofTokens (scan text)).kind? = some .opening)
    (ahead : ∃ taken, (firstPlace text).rest = taken ++ back) :
    (ofTokens (scan text')).kind? = some .opening ∧
      ∃ more, Joined back back' more (firstPlace text) (firstPlace text') := by
  have beside : Beside back back' shared ⟨[], scan text⟩ ⟨[], scan text'⟩ :=
    { near := ⟨padding, soft, near⟩, far := ⟨padding', soft', far⟩, firm, padded := fun _ => rfl }
  have start : Joined back back' _ (ofTokens (scan text)) (ofTokens (scan text')) :=
    (beside.skipPadding joint.toEnds).joined
  have longer {cursor : Cursor} {kind : Kind} (stands : cursor.kind? = some kind)
      (later : ∃ taken, cursor.advance.rest = taken ++ back) :
      ∃ taken, taken ≠ [] ∧ cursor.rest = taken ++ back := by
    obtain ⟨taken, rest⟩ := later
    obtain ⟨lead, whole, proper⟩ := exists_rest_advance stands
    exact ⟨lead ++ taken,
      List.append_ne_nil_of_left_ne_nil proper _, by rw [whole, rest, List.append_assoc]⟩
  refine ⟨start.kind?_eq joint ▸ opens, ?_⟩
  rw [firstPlace, Cursor.accept] at ahead
  rw [firstPlace, firstPlace, Cursor.accept, Cursor.accept]
  cases broken : (ofTokens (scan text)).advance.isAt .lineBreak with
  | false =>
      rw [broken, if_neg Bool.false_ne_true] at ahead
      obtain ⟨more, opened⟩ := start.advance joint (longer opens ahead)
      rw [← opened.isAt_eq joint, broken, if_neg Bool.false_ne_true, if_neg Bool.false_ne_true]
      exact ⟨more, opened⟩
  | true =>
      rw [broken, if_pos rfl] at ahead
      obtain ⟨taken, proper, rest⟩ := longer (beq_iff_eq.mp broken) ahead
      obtain ⟨more, opened⟩ := start.advance joint (longer opens ⟨taken, rest⟩)
      rw [← opened.isAt_eq joint, broken, if_pos rfl, if_pos rfl]
      exact opened.advance joint ⟨taken, proper, rest⟩

end Joined

/-! ## Whole comments -/

/-- Behind an entry and its padding remains what stands behind its span. -/
theorem rest_of_entry (verbatim : dialect.OnlyVerbatim) (pieces : ArePieces here.tokens)
    {span : Span} (run : entry dialect here = .ok item after) (span? : item.span? = some span) :
    after.rest = (here.tokens.drop span.stop).dropWhile fun token => token.kind == .padding := by
  obtain ⟨own, pads, covers⟩ := covers_of_entry verbatim run
  have soft : ArePadding pads := pieces.arePadding (fun token mem => List.mem_append_right _
    (covers.rest ▸ List.mem_append_right _ (List.mem_append_left _ mem))) covers.soft
  rw [covers.span?, Option.some.injEq] at span?
  rw [← span?, Span.between_stop, Nat.max_eq_right (Nat.le_add_right _ _), ← List.drop_drop,
    ← here.rest_eq_drop, covers.rest, List.drop_left, dropWhile_padding soft covers.ends]

theorem Passes.rest_eq (verbatim : dialect.OnlyVerbatim) (passes : Passes dialect cursor items last)
    (pieces : ArePieces cursor.tokens) (final : items.getLast? = some item) {span : Span}
    (span? : item.span? = some span) :
    last.rest = (cursor.tokens.drop span.stop).dropWhile fun token => token.kind == .padding := by
  induction passes with
  | stays => cases final
  | @next cursor after last other items broken opens run later ih =>
      obtain ⟨_, fills⟩ := fills_of_entry verbatim run
      have tokens := fills.crosses.tokens.trans cursor.tokens_advance
      cases items with
      | nil =>
          cases later
          cases final
          rw [← cursor.tokens_advance] at pieces ⊢
          exact rest_of_entry verbatim pieces run span?
      | cons first items =>
          rw [← tokens] at pieces ⊢
          exact ih pieces final

/-- The first entry and those behind it lead up to what stands behind the last one. -/
theorem exists_passes (verbatim : dialect.OnlyVerbatim) {text : Text} {first after : Cursor}
    (tokens : first.tokens = scan text) (run : entry dialect first = .ok item after)
    (trail : Trail dialect after items) {final : Entry}
    (last? : (item :: items).getLast? = some final) {span : Span}
    (span? : final.span? = some span) :
    ∃ last taken, Passes dialect after items last ∧ Trail dialect last [] ∧
      first.rest = taken ++ last.rest ∧
      last.rest = ((scan text).drop span.stop).dropWhile fun token => token.kind == .padding := by
  have pieces := arePieces_scan text
  obtain ⟨_, fills⟩ := fills_of_entry verbatim run
  obtain ⟨last, passes, ended⟩ := Passes.exists_of_trail trail
  obtain ⟨taken, remains, -⟩ := passes.exists_rest verbatim
  obtain ⟨crossed, whole, -⟩ := fills.crosses.exists_crossed
  refine ⟨last, crossed ++ taken, passes, ended, by rw [whole, remains, List.append_assoc], ?_⟩
  cases items with
  | nil =>
      cases passes
      cases last?
      rw [← tokens] at pieces ⊢
      exact rest_of_entry verbatim pieces run span?
  | cons next items =>
      have same := fills.crosses.tokens.trans tokens
      rw [← same] at pieces ⊢
      exact passes.rest_eq verbatim pieces last? span?

/-- Behind the last entry nothing is read any more. -/
theorem exists_ended (verbatim : dialect.OnlyVerbatim) {text : Text} {document : Document}
    (run : dialect.read text = .ok document) (final : document.comment.entries.getLast? = some item)
    {span : Span} (span? : item.span? = some span) :
    ∃ last, Trail dialect last [] ∧
      last.rest = ((scan text).drop span.stop).dropWhile fun token => token.kind == .padding := by
  have heads := heads_of_read verbatim run
  generalize document.comment.entries = items at heads final
  cases heads with
  | closed => cases final
  | first _ ran trail =>
      obtain ⟨last, _, -, ended, -, rest⟩ :=
        exists_passes verbatim (tokens_firstPlace text) ran trail final span?
      exact ⟨last, ended, rest⟩

/-- The padding behind a place. -/
theorem arePadding_takeWhile (text : Text) (place : Nat) :
    ArePadding (((scan text).drop place).takeWhile fun token => token.kind == .padding) :=
  (arePieces_scan text).arePadding
    (fun _ mem => List.mem_of_mem_drop ((List.takeWhile_sublist _).subset mem))
    fun _ mem =>
    beq_iff_eq.mp (List.mem_takeWhile_imp (p := fun token : Token => token.kind == .padding) mem)

/-- Tokens up to a place, and from there on the padding, without the padding in front of that. -/
theorem exists_shared {text : Text} (place : Nat) :
    ∃ shared pads gap, (scan text).take place = shared ++ pads ∧ ArePadding pads ∧ ArePadding gap ∧
      (∀ token, shared.getLast? = some token → token.kind ≠ .padding) ∧
        scan text = shared ++ (pads ++ gap ++
          ((scan text).drop place).dropWhile fun token => token.kind == .padding) := by
  have pieces := arePieces_scan text
  obtain ⟨shared, pads, front, soft, firm⟩ := exists_firm ((scan text).take place)
  have lead : ArePadding pads := pieces.arePadding (fun token mem =>
    List.mem_of_mem_take (front ▸ List.mem_append_right shared mem)) soft
  refine ⟨shared, pads, _, front, lead, arePadding_takeWhile text place, firm, ?_⟩
  rw [List.append_assoc, List.takeWhile_append_dropWhile, ← List.append_assoc, ← front,
    List.take_append_drop]

/-- A comment in which something else stands behind the last entry is read, with
the same entries in front of it. -/
theorem read_of_graft (verbatim : dialect.OnlyVerbatim) {text text' : Text} {document : Document}
    (run : dialect.read text = .ok document) (final : document.comment.entries.getLast? = some item)
    {span : Span}
    (span? : item.span? = some span) {padding : List Token} (soft : ArePadding padding)
    (joint :
      Joint (((scan text).drop span.stop).dropWhile fun token => token.kind == .padding) back')
    (split : scan text' = (scan text).take span.stop ++ (padding ++ back')) {p : List Entry → Prop}
    (reads : ∀ cursor, cursor.rest = back' → ∃ later, Trail dialect cursor later ∧ p later) :
    ∃ printed found later, dialect.read text' = .ok printed ∧
      printed.comment.entries = found ++ later ∧
      found.map Entry.unplaced = document.comment.entries.map Entry.unplaced ∧ p later := by
  obtain ⟨opens, -⟩ := read_eq_ok run
  have pieces := arePieces_scan text
  have heads := heads_of_read verbatim run
  generalize document.comment.entries = items at heads final
  cases heads with
  | closed => cases final
  | @first after other items goesOn ran trail =>
      have tokens := tokens_firstPlace text
      obtain ⟨last, taken, passes, -, ahead, ended⟩ :=
        exists_passes verbatim tokens ran trail final span?
      obtain ⟨shared, pads, gap, front, lead, behind, firm, near⟩ := @exists_shared text span.stop
      rw [front, List.append_assoc, ← List.append_assoc pads] at split
      rw [← ended] at joint near
      have both {more : List Token} (soft : ArePadding more) :
          ArePadding (pads ++ more) := fun token mem =>
        (List.mem_append.mp mem).elim (lead token) (soft token)
      obtain ⟨opens', more, joined⟩ :=
        joined_firstPlace joint near split (both behind) (both soft) firm opens ⟨taken, ahead⟩
      obtain ⟨found, later, same, heads', holds⟩ :=
        Heads.graft verbatim joint goesOn ran passes rfl (tokens ▸ pieces) joined reads
      exact ⟨_, found, later, heads'.read verbatim opens', rfl, same, holds⟩

end Dialect

end DocComment
