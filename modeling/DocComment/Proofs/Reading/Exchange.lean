import DocComment.Proofs.Reading.Elsewhere
import DocComment.Proofs.Reading.Trail

/-!
# Exchanging what stands from a tag on

Reading goes from front to back: whatever stands from the marker of a tag on,
the entries in front of it end where they did, and the tag is read at its place
in the list (`Heads.exchange`).
-/

namespace DocComment

open Token

namespace Cursor

/-- Two cursors in front of the same tokens, behind which tokens of the same kind stand. -/
structure Fronted (tokens : List Token) (first first' : Token) (behind behind' : List Token)
    (here there : Cursor) : Prop where
  near : here.rest = tokens ++ first :: behind
  far : there.rest = tokens ++ first' :: behind'
  same : first'.kind = first.kind

namespace Fronted

variable {tokens behind behind' : List Token} {first first' : Token} {here there : Cursor}

theorem kind?_eq (fronted : Fronted tokens first first' behind behind' here there) :
    here.kind? = there.kind? := by
  rw [kind?, kind?, fronted.near, fronted.far]
  cases tokens with
  | nil => exact congrArg some fronted.same.symm
  | cons token tokens => rfl

theorem isAt_eq (fronted : Fronted tokens first first' behind behind' here there) (kind : Kind) :
    here.isAt kind = there.isAt kind := by
  rw [isAt, isAt, fronted.kind?_eq]

theorem isAtClose_eq (fronted : Fronted tokens first first' behind behind' here there) :
    here.isAtClose = there.isAtClose := by
  have more : here.isAtEnd = false ∧ there.isAtEnd = false := by
    rw [isAtEnd, isAtEnd, fronted.near, fronted.far]
    cases tokens with
    | nil => exact ⟨rfl, rfl⟩
    | cons token tokens => exact ⟨rfl, rfl⟩
  rw [isAtClose, isAtClose, more.1, more.2, fronted.isAt_eq]

theorem dropWhile_eq {p : Token → Bool} {first : Token} (stays : p first = false)
    (behind : List Token) :
    (tokens ++ first :: behind).dropWhile p = tokens.dropWhile p ++ first :: behind := by
  have firm : (first :: behind).dropWhile p = first :: behind :=
    List.dropWhile_cons_of_neg (Bool.eq_false_iff.mp stays)
  rw [List.dropWhile_append, firm]
  split
  next empty => rw [List.isEmpty_iff.mp empty, List.nil_append]
  next => rfl

theorem skipPadding (fronted : Fronted tokens first first' behind behind' here there)
    (firm : first.kind ≠ .padding) :
    Fronted (tokens.dropWhile fun token => token.kind == .padding) first first' behind behind'
      here.skipPadding there.skipPadding := by
  have stays : (first.kind == .padding) = false := beq_eq_false_iff_ne.mpr firm
  have stays' : (first'.kind == .padding) = false := fronted.same ▸ stays
  refine { near := ?near, far := ?far, same := fronted.same }
  case near =>
    have moved : here.skipPadding.rest = here.rest.dropWhile fun token => token.kind == .padding := rfl
    rw [moved, fronted.near, dropWhile_eq stays]
  case far =>
    have moved : there.skipPadding.rest = there.rest.dropWhile fun token =>
      token.kind == .padding := rfl
    rw [moved, fronted.far, dropWhile_eq stays']

theorem advance {token : Token}
    (fronted : Fronted (token :: tokens) first first' behind behind' here there)
    (firm : first.kind ≠ .padding) :
    Fronted (tokens.dropWhile fun token => token.kind == .padding) first first' behind behind'
      here.advance there.advance := by
  have stepped : Fronted tokens first first' behind behind' here.step there.step :=
    ⟨rest_step fronted.near, rest_step fronted.far, fronted.same⟩
  exact stepped.skipPadding firm

/-- In front of a token of another kind than the first one of what differs, there
is a token in front of that. -/
theorem exists_cons (fronted : Fronted tokens first first' behind behind' here there) {kind : Kind}
    (stands : here.isAt kind = true) (other : first.kind ≠ kind) :
    ∃ token more, tokens = token :: more := by
  cases tokens with
  | nil =>
      rw [isAt_of_rest fronted.near, beq_iff_eq] at stands
      exact absurd stands other
  | cons token more => exact ⟨token, more, rfl⟩

theorem accept (fronted : Fronted tokens first first' behind behind' here there)
    (firm : first.kind ≠ .padding) {kind : Kind} (other : first.kind ≠ kind) :
    ∃ more, Fronted more first first' behind behind' (here.accept kind) (there.accept kind) := by
  have same := fronted.isAt_eq kind
  cases stands : here.isAt kind with
  | false =>
      rw [accept_of_not_isAt stands, accept_of_not_isAt (same ▸ stands)]
      exact ⟨tokens, fronted⟩
  | true =>
      obtain ⟨token, more, rfl⟩ := fronted.exists_cons stands other
      rw [accept_of_isAt stands, accept_of_isAt (same ▸ stands)]
      exact ⟨_, fronted.advance firm⟩

/-- Whether a description goes on is seen from what stands in front of the next tag. -/
theorem continues_eq (fronted : Fronted tokens first first' behind behind' here there)
    (tag : first.kind = .tag) :
    Payload.Grammar.continues here = Payload.Grammar.continues there := by
  rw [Payload.Grammar.continues, Payload.Grammar.continues, ← fronted.isAt_eq]
  cases stands : here.isAt .lineBreak with
  | false => rfl
  | true =>
      obtain ⟨token, more, rfl⟩ := fronted.exists_cons stands (by rw [tag]; decide)
      rw [(fronted.advance (by rw [tag]; decide)).kind?_eq]

end Fronted

end Cursor

namespace Dialect

open Cursor Payload.Grammar

variable {dialect : Dialect} {behind behind' : List Token} {first first' : Token}

/-- The tokens are pieces of a text, where they were not joined from several ones. -/
def ArePieces (tokens : List Token) : Prop :=
  ∀ token ∈ tokens, token.kind ≠ .other → token.IsPiece

theorem arePieces_scan (text : Text) : ArePieces (scan text) :=
  fun _ mem known => isPiece_of_mem_scan mem known

theorem ArePieces.arePadding {tokens : List Token} (pieces : ArePieces tokens)
    {padding : List Token}
    (within : ∀ token ∈ padding, token ∈ tokens) (soft : ∀ token ∈ padding, token.kind = .padding) :
    ArePadding padding := fun token mem =>
  ⟨soft token mem,
    (pieces token (within token mem) (by rw [soft token mem]; decide)).text_of_padding
    (soft token mem)⟩

theorem ArePieces.marks {tokens : List Token} (pieces : ArePieces tokens) :
    ∀ token ∈ tokens, token.kind = .ampersand → token.text = ['&'] := fun token mem kind =>
  (pieces token mem (by rw [kind]; decide)).text_of_ampersand kind

/-- An entry that ends in front of a tag ends at the same token whatever stands from the tag on. -/
theorem exchange_entry (verbatim : dialect.OnlyVerbatim) (tag : first.kind = .tag)
    {front back : List Token} {here there middle : Cursor} {item : Entry}
    (fronted : Fronted front first first' behind behind' here there)
    (pieces : ArePieces here.tokens) (run : entry dialect here = .ok item middle)
    (stands : middle.rest = back ++ first :: behind) (broken : middle.isAt .lineBreak = true) :
    ∃ item' middle', entry dialect there = .ok item' middle' ∧
      middle'.rest = back ++ first' :: behind' := by
  obtain ⟨shared, padding, covers⟩ := covers_of_entry verbatim run
  have rest := covers.rest
  have ahead : ArePieces here.rest := fun token mem => pieces token (List.mem_append_right _ mem)
  have soft : ArePadding padding := ahead.arePadding
    (fun token mem => rest ▸ List.mem_append_right _ (List.mem_append_left _ mem)) covers.soft
  have split : front = shared ++ (padding ++ back) := by
    rw [fronted.near, stands, ← List.append_assoc padding, ← List.append_assoc shared] at rest
    exact List.append_cancel_right rest
  have sharing : Sharing middle.rest (back ++ first' :: behind') shared here there := by
    refine { near := ⟨padding, soft, rest⟩, far := ⟨padding, soft, ?_⟩, firm := covers.firm }
    rw [fronted.far, split]
    simp only [List.append_assoc]
  have after : Fronted back first first' behind behind' middle ⟨[], back ++ first' :: behind'⟩ :=
    ⟨stands, rfl, fronted.same⟩
  obtain ⟨feed, more, rfl⟩ := after.exists_cons broken (by rw [tag]; decide)
  have kind : feed.kind = .lineBreak := by
    rw [isAt_of_rest stands, beq_iff_eq] at broken
    exact broken
  have closes : Closes middle.rest (feed :: more ++ first' :: behind') :=
    { near := covers.ends
      far := by
        rintro token ⟨⟩
        exact Or.inl kind
      proper := List.cons_ne_nil _ _
      encloses := Or.inl ⟨feed, by rw [stands]; rfl, kind⟩ }
  have halts : Halts middle.rest (feed :: more ++ first' :: behind') := by
    intro cursor cursor' near far stopped
    have same : Fronted (feed :: more) first first' behind behind' cursor cursor' :=
      ⟨near.trans stands, far, fronted.same⟩
    exact (same.continues_eq tag).symm.trans stopped
  rcases run_entry_of_sharing verbatim closes sharing ahead.marks (fun _ => halts) run rfl with
    ⟨item', middle', ran, -, whole | ⟨unbroken, -⟩⟩ | ⟨empty, -⟩
  · exact ⟨item', middle', ran, whole⟩
  · exact absurd kind (unbroken feed (by rw [stands]; rfl))
  · rw [stands] at empty
    cases empty

/-- Every entry of a trail starts behind where the trail starts. -/
theorem index_lt_of_trail (verbatim : dialect.OnlyVerbatim) {cursor : Cursor} {items : List Entry}
    (trail : Trail dialect cursor items) :
    ∀ item ∈ items, ∀ span, item.span? = some span → cursor.index < span.start := by
  induction trail with
  | closed => exact nofun
  | ended => exact nofun
  | @next cursor after item items broken opens run later ih =>
      obtain ⟨span, fills⟩ := fills_of_entry verbatim run
      have beyond := index_lt_advance (beq_iff_eq.mp broken)
      have forward := fills.crosses.index_le
      refine List.forall_mem_cons.mpr ⟨?_, fun other mem place stands => ?_⟩
      · intro place stands
        rw [fills.span?] at stands
        cases stands
        rw [fills.start]
        exact beyond
      · have further := ih other mem place stands
        omega

/-- What remains at a place in front of a tag ends in what stands from the tag on. -/
theorem exists_rest {cursor : Cursor} {tokens : List Token}
    (split : cursor.tokens = tokens ++ first :: behind)
    (near : cursor.index ≤ tokens.length) : ∃ back, cursor.rest = back ++ first :: behind :=
  ⟨tokens.drop cursor.index, by rw [cursor.rest_eq_drop, split, List.drop_append_of_le_length near]⟩

/--
The tag is at its place in the list, whatever stands from it on, when it is
read there and the lines behind it are.
-/
theorem Heads.exchange (verbatim : dialect.OnlyVerbatim) (tag : first.kind = .tag)
    {p : Entry → Prop}
    (reads : ∀ cursor, cursor.rest = first' :: behind' → ∃ item after items,
      entry dialect cursor = .ok item after ∧ Trail dialect after items ∧ p item)
    {before later : List Entry} {item : Entry} {span : Span} {tokens front : List Token}
    {here there : Cursor}
    (heads : Heads dialect here (before ++ item :: later)) (span? : item.span? = some span)
    (split : here.tokens = tokens ++ first :: behind) (start : span.start = tokens.length)
    (pieces : ArePieces here.tokens)
    (fronted : Fronted front first first' behind behind' here there) :
    ∃ before' item' later', before'.length = before.length ∧
      Heads dialect there (before' ++ item' :: later') ∧ p item' := by
  induction before generalizing here there front with
  | nil =>
      cases heads with
      | first opens run trail =>
          obtain ⟨shared, padding, covers⟩ := covers_of_entry verbatim run
          rw [covers.span?, Option.some.injEq] at span?
          rw [← span?, Span.between_start] at start
          have rest := here.rest_eq_drop
          rw [split, start, List.drop_left, fronted.near] at rest
          obtain rfl := List.append_left_eq_self.mp rest
          obtain ⟨item', after', items, run', trail', holds⟩ := reads there fronted.far
          exact ⟨[], item', items, rfl, .first (fronted.isAtClose_eq ▸ opens) run' trail', holds⟩
  | cons other before ih =>
      generalize whole : other :: before ++ item :: later = items at heads
      cases heads with
      | closed => cases whole
      | @first middle first items opens run trail =>
          obtain ⟨rfl, rest⟩ := List.cons.inj whole
          obtain ⟨_, fills⟩ := fills_of_entry verbatim run
          have same := fills.crosses.tokens
          have mem : item ∈ items := rest ▸ List.mem_append_right before List.mem_cons_self
          have ahead := index_lt_of_trail verbatim trail item mem span span?
          obtain ⟨back, stands⟩ := exists_rest (same.trans split) (by omega)
          cases trail with
          | closed => cases mem
          | ended => cases mem
          | next broken opens' run' trail' =>
              obtain ⟨other', middle', ran, stands'⟩ :=
                exchange_entry verbatim tag fronted pieces run stands broken
              have after : Fronted back _ first' behind behind' middle middle' :=
                ⟨stands, stands', fronted.same⟩
              obtain ⟨feed, more, rfl⟩ := after.exists_cons broken (by rw [tag]; decide)
              have advanced := after.advance (by rw [tag]; decide)
              have tokens := middle.tokens_advance.trans same
              have inner : Heads dialect middle.advance (before ++ item :: later) := by
                rw [show before ++ item :: later = _ from rest]
                exact .first opens' run' trail'
              obtain ⟨before', item', later', length, heads', holds⟩ :=
                ih inner (tokens ▸ split) (tokens ▸ pieces) advanced
              refine ⟨other' :: before', item', later', congrArg Nat.succ length, ?_, holds⟩
              exact .first (fronted.isAtClose_eq ▸ opens) ran
                (heads'.trail (after.isAt_eq .lineBreak ▸ broken))

/-! ## Whole texts -/

theorem exists_trail (verbatim : dialect.OnlyVerbatim) (names : dialect.naming.NamesClasses)
    {cursor : Cursor} (ends : cursor.isAtLineEnd = true) : ∃ items, Trail dialect cursor items := by
  obtain ⟨items, after, run⟩ := succeeds_furtherEntries names (cursor.rest.length + 1) cursor
  exact ⟨items, trail_of_furtherEntries verbatim (Nat.lt_succ_self _) ends run⟩

theorem tokens_firstPlace (text : Text) : (firstPlace text).tokens = scan text := by
  rw [firstPlace, tokens_accept, tokens_advance, ofTokens, tokens_placed]

/-- Texts with the same tokens in front of a tag put the first entry at the same place. -/
theorem fronted_firstPlace {text text' : Text} {tokens : List Token} (tag : first.kind = .tag)
    (tag' : first'.kind = .tag) (near : scan text = tokens ++ first :: behind)
    (far : scan text' = tokens ++ first' :: behind')
    (opens : (ofTokens (scan text)).kind? = some .opening) :
    (ofTokens (scan text')).kind? = some .opening ∧
      ∃ front, Fronted front first first' behind behind' (firstPlace text) (firstPlace text') := by
  have firm : first.kind ≠ .padding := by rw [tag]; decide
  have other : first.kind ≠ .lineBreak := by rw [tag]; decide
  have start : Fronted tokens first first' behind behind' ⟨[], scan text⟩ ⟨[], scan text'⟩ :=
    ⟨near, far, tag'.trans tag.symm⟩
  have placed := start.skipPadding firm
  have opened : (ofTokens (scan text)).isAt .opening = true := beq_iff_eq.mpr opens
  obtain ⟨token, more, split⟩ := placed.exists_cons opened (by rw [tag]; decide)
  rw [split] at placed
  exact ⟨placed.kind?_eq.symm.trans opens, (placed.advance firm).accept firm other⟩

/--
A text that is exchanged from a tag on is read, and at the place of the tag
stands the entry that is read there.
-/
theorem read_of_exchange (verbatim : dialect.OnlyVerbatim) {text text' : Text} {document : Document}
    (run : dialect.read text = .ok document) {before later : List Entry} {item : Entry}
    {span : Span}
    (entries : document.comment.entries = before ++ item :: later) (span? : item.span? = some span)
    (near : scan text = (scan text).take span.start ++ first :: behind) (tag : first.kind = .tag)
    (far : scan text' = (scan text).take span.start ++ first' :: behind')
    (tag' : first'.kind = .tag)
    {p : Entry → Prop} (reads : ∀ cursor, cursor.rest = first' :: behind' → ∃ item after items,
      entry dialect cursor = .ok item after ∧ Trail dialect after items ∧ p item) :
    ∃ printed found, dialect.read text' = .ok printed ∧
      printed.comment.entries[before.length]? = some found ∧ p found := by
  obtain ⟨opens, -⟩ := read_eq_ok run
  have heads := heads_of_read verbatim run
  rw [entries] at heads
  obtain ⟨opens', front, fronted⟩ := fronted_firstPlace tag tag' near far opens
  have within : span.start ≤ (scan text).length := by
    by_contra beyond
    have whole := List.take_of_length_le (Nat.le_of_lt (Nat.not_le.mp beyond))
    rw [whole] at near
    exact absurd (List.self_eq_append_right.mp near) (List.cons_ne_nil _ _)
  have start : span.start = ((scan text).take span.start).length := by
    rw [List.length_take, Nat.min_eq_left within]
  have pieces : ArePieces (firstPlace text).tokens := fun token mem known =>
    isPiece_of_mem_scan (tokens_firstPlace text ▸ mem) known
  obtain ⟨before', found, later', length, heads', holds⟩ := heads.exchange verbatim tag reads span?
    ((tokens_firstPlace text).trans near) start pieces fronted
  refine ⟨_, found, heads'.read verbatim opens', ?_, holds⟩
  change (before' ++ found :: later')[before.length]? = some found
  rw [← length, List.getElem?_append_right (Nat.le_refl _), Nat.sub_self]
  rfl

end Dialect

end DocComment
