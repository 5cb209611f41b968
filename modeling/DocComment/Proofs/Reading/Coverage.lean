import DocComment.Proofs.Reading.Lines
import DocComment.Proofs.Token.Slices
import Mathlib.Logic.ExistsUnique

/-!
# Entries cover their comment

Between the markers of a comment only line breaks and padding stand outside
the entries.  A tag begins with its name, and prose is what its span covers
without the blanks around it (`tiling_of_read`).
-/

namespace DocComment

open Token

namespace Token

variable {tokens : List Token} {start stop place close : Nat}

/-! ## Places outside all spans -/

/-- A place beside a line break holds that break or padding. -/
theorem Broken.kind {kind : Kind} (broken : Broken tokens start stop) (low : start ≤ place)
    (high : place < stop) (stands : kindAt? tokens place = some kind) :
    kind = .lineBreak ∨ kind = .padding := by
  obtain ⟨feed, front, breaks, back⟩ := broken
  rcases Nat.lt_trichotomy place feed with before | rfl | behind
  · rw [front.padding place low before] at stands
    exact Or.inr (Option.some.inj stands).symm
  · rw [breaks] at stands
    exact Or.inl (Option.some.inj stands).symm
  · rw [back.padding place behind high] at stands
    exact Or.inr (Option.some.inj stands).symm

theorem Lines.covered {spans : List Span} {kind : Kind} (lines : Lines tokens close start spans)
    (low : start ≤ place) (high : place < close) (stands : kindAt? tokens place = some kind) :
    (kind = .lineBreak ∨ kind = .padding) ∨ ∃ span ∈ spans, span.contains place = true := by
  induction lines with
  | last padded =>
      rw [padded.padding place low high] at stands
      exact Or.inl (Or.inr (Option.some.inj stands).symm)
  | ended broken => exact Or.inl (broken.kind low high stands)
  | @next start span spans broken later ih =>
      rcases Nat.lt_or_ge place span.start with before | inside
      · exact Or.inl (broken.kind low before stands)
      rcases Nat.lt_or_ge place span.stop with within | behind
      · exact Or.inr ⟨span, List.mem_cons_self, Span.contains_iff.mpr ⟨inside, within⟩⟩
      · exact (ih behind).imp_right fun ⟨other, mem, holds⟩ =>
          ⟨other, List.mem_cons_of_mem _ mem, holds⟩

theorem Opened.covered {spans : List Span} {kind : Kind} (opened : Opened tokens close start spans)
    (low : start ≤ place) (high : place < close) (stands : kindAt? tokens place = some kind) :
    (kind = .lineBreak ∨ kind = .padding) ∨ ∃ span ∈ spans, span.contains place = true := by
  cases opened with
  | lines lines => exact lines.covered low high stands
  | @shared span spans padded later =>
      rcases Nat.lt_or_ge place span.start with before | inside
      · rw [padded.padding place low before] at stands
        exact Or.inl (Or.inr (Option.some.inj stands).symm)
      rcases Nat.lt_or_ge place span.stop with within | behind
      · exact Or.inr ⟨span, List.mem_cons_self, Span.contains_iff.mpr ⟨inside, within⟩⟩
      · exact (later.covered behind high stands).imp_right fun ⟨other, mem, holds⟩ =>
          ⟨other, List.mem_cons_of_mem _ mem, holds⟩

end Token

namespace Dialect

variable {dialect : Dialect} {cursor after : Cursor} {item : Entry}

/-! ## Where the entries of a comment come from -/

/-- The entry was read somewhere among the tokens, as a tag or as the rest of a line. -/
def WasRead (dialect : Dialect) (tokens : List Token) (item : Entry) : Prop :=
  ∃ before behind : Cursor, before.tokens = tokens ∧
    ((before.isAt .tag = true ∧ tag dialect before = .ok item behind) ∨
      prose before = .ok item behind)

theorem wasRead_of_prose (run : prose cursor = .ok item after) :
    dialect.WasRead cursor.tokens item :=
  ⟨cursor, after, rfl, Or.inr run⟩

theorem wasRead_of_entry (run : entry dialect cursor = .ok item after) :
    dialect.WasRead cursor.tokens item := by
  rcases entry_eq_ok run with ⟨stands, run⟩ | ⟨-, run⟩
  · exact ⟨cursor, after, rfl, Or.inl ⟨stands, run⟩⟩
  · exact wasRead_of_prose run

theorem wasRead_of_furtherEntries (forward : dialect.MovesForward) {bound : Nat}
    {found : List Entry} (run : furtherEntries dialect bound cursor = .ok found after) :
    ∀ item ∈ found, dialect.WasRead cursor.tokens item := by
  induction bound generalizing cursor found with
  | zero =>
      cases run
      exact List.forall_mem_nil _
  | succ bound ih =>
      cases round_of_furtherEntries run with
      | closed => exact List.forall_mem_nil _
      | ended => exact List.forall_mem_nil _
      | line broken opens taken ran =>
          obtain ⟨_, stands⟩ := stands_of_entry forward taken
          rw [← cursor.tokens_advance]
          exact List.forall_mem_cons.mpr ⟨wasRead_of_entry taken, stands.tokens ▸ ih ran⟩
      | rest within taken ran =>
          obtain ⟨_, stands⟩ := stands_of_prose taken
          exact List.forall_mem_cons.mpr ⟨wasRead_of_prose taken, stands.tokens ▸ ih ran⟩

theorem wasRead_of_entries (forward : dialect.MovesForward) {found : List Entry}
    (run : entries dialect cursor = .ok found after) :
    ∀ item ∈ found, dialect.WasRead cursor.tokens item := by
  rcases entries_eq_ok run with ⟨-, rfl, -⟩ | ⟨-, first, others, middle, taken, ran, rfl⟩
  · exact List.forall_mem_nil _
  · obtain ⟨_, stands⟩ := stands_of_entry forward taken
    exact List.forall_mem_cons.mpr
      ⟨wasRead_of_entry taken, stands.tokens ▸ wasRead_of_furtherEntries forward ran⟩

/-- Every entry of a document was read among its tokens. -/
theorem wasRead_of_read (forward : dialect.MovesForward) {text : Text} {document : Document}
    (run : dialect.read text = .ok document) :
    ∀ item ∈ document.comment.entries, dialect.WasRead document.tokens item := by
  obtain ⟨_, items, last, ran, rfl⟩ := read_eq_ok run
  have found := wasRead_of_entries forward ran
  rw [Cursor.tokens_accept, Cursor.tokens_advance, Cursor.ofTokens, Cursor.tokens_placed] at found
  exact found

/-! ## What entries say -/

/-- A tag begins with its name, wherever its payload ends. -/
theorem name_prefix_of_tagName {name : Text} (stands : cursor.isAt .tag = true)
    (run : tagName dialect cursor = .ok name after) {stop : Nat} (high : cursor.index + 1 ≤ stop)
    (padded : Padded cursor.tokens stop after.index ∨ after.index ≤ stop) :
    name <+: textBetween cursor.tokens cursor.index stop := by
  have here := beq_iff_eq.mp stands
  have stepped := Cursor.index_step here
  rcases tagName_eq_ok run with ⟨rfl, _⟩ | ⟨glued, rfl, rfl⟩
  · rw [Cursor.text_eq_textBetween here]
    exact textBetween_isPrefix (Nat.le_succ _) high
  · have next := Cursor.isAt_iff.mp glued
    have beyond := Cursor.index_lt_advance (beq_iff_eq.mp glued)
    rw [Cursor.tokens_step, stepped] at next
    rw [stepped] at beyond
    -- The glued name is no padding, so the payload cannot end in front of it.
    have far : cursor.index + 2 ≤ stop := by
      rcases padded with padded | passed
      · rcases Nat.lt_or_ge (cursor.index + 1) stop with far | near
        · exact far
        have place := padded.padding (cursor.index + 1) near beyond
        rw [next] at place
        cases place
      · exact Nat.le_trans beyond passed
    rw [Cursor.text_eq_textBetween here, Cursor.text_eq_textBetween (beq_iff_eq.mp glued),
      Cursor.tokens_step, stepped, ← textBetween_append (by omega) (by omega)]
    exact textBetween_isPrefix (by omega) far

/-- What an entry says begins what its span covers. -/
def Reflects (tokens : List Token) : Entry → Prop
  | .tag tag => ∃ span, tag.span = some span ∧ tag.name <+: span.textIn tokens
  | .prose prose =>
      ∃ span, prose.span = some span ∧ prose.text = Text.trim (span.textIn tokens)

theorem reflects_of_tag (verbatim : dialect.OnlyVerbatim) (stands : cursor.isAt .tag = true)
    (run : tag dialect cursor = .ok item after) : Reflects cursor.tokens item := by
  obtain ⟨name, behind, content, read, named, taken, rfl, _⟩ := tag_eq_ok run
  have ends := isAtLineEnd_of_payload verbatim taken
  have crossed := (crosses_payload (fun _ same => same) verbatim.crosses name behind).of_ok taken
  have tokens : read.tokens = cursor.tokens := by
    rw [crossed.tokens, (crosses_tagName named).tokens, Cursor.tokens_step]
  have forward := Nat.lt_of_lt_of_le (index_lt_of_tagName stands named) crossed.index_le
  have high : cursor.index + 1 ≤ read.significantEnd (cursor.index + 1) :=
    Cursor.le_significantEnd (Nat.succ_le_of_lt forward)
  have padded := Cursor.padded_significantEnd (cursor.index + 1) read
  rw [tokens] at padded
  refine ⟨_, rfl, ?_⟩
  rw [Span.textIn, Span.between_start, Span.between_stop, tagStop_eq ends,
    Nat.max_eq_right (by omega)]
  refine name_prefix_of_tagName stands named high ?_
  rcases Nat.le_total behind.index (read.significantEnd (cursor.index + 1)) with passed | before
  · exact Or.inr passed
  · exact Or.inl ⟨before, fun place low upper =>
      padded.padding place low (Nat.lt_of_lt_of_le upper crossed.index_le)⟩

theorem reflects_of_wasRead (verbatim : dialect.OnlyVerbatim) {tokens : List Token}
    (read : dialect.WasRead tokens item) : Reflects tokens item := by
  obtain ⟨before, behind, rfl, ⟨stands, run⟩ | run⟩ := read
  · exact reflects_of_tag verbatim stands run
  · obtain ⟨rfl, span, rfl, rfl⟩ := prose_eq_ok run
    exact ⟨_, rfl, rfl⟩

end Dialect

/-! ## Tilings -/

/-- Where the opening marker of some tokens stands. -/
def Token.openingPlace (tokens : List Token) : Nat :=
  tokens.findIdx fun token => token.kind == .opening

/-- Where the first closing marker of some tokens stands, or their end. -/
def Token.closingPlace (tokens : List Token) : Nat :=
  tokens.findIdx fun token => token.kind == .closing

/-- The entries of a comment take up all of it but line breaks and padding. -/
structure Tiling (document : Document) (spans : List Span) : Prop where
  inside : ∀ span ∈ spans,
    openingPlace document.tokens < span.start ∧ span.stop ≤ closingPlace document.tokens
  covered : ∀ place kind, openingPlace document.tokens < place →
    place < closingPlace document.tokens → kindAt? document.tokens place = some kind →
      kind ≠ .lineBreak → kind ≠ .padding → ∃! span, span ∈ spans ∧ span.contains place = true
  reflects : ∀ item ∈ document.comment.entries, Dialect.Reflects document.tokens item

namespace Token

variable {tokens : List Token} {opening close : Nat} {spans : List Span}

theorem findIdx_kind_eq {kind : Kind} {place : Nat} (within : place ≤ tokens.length)
    (here : ∀ found, kindAt? tokens place = some found → found = kind)
    (before : ∀ other < place, kindAt? tokens other ≠ some kind) :
    (tokens.findIdx fun token => token.kind == kind) = place := by
  have unlike : ∀ other (near : other < place), (tokens[other].kind == kind) = false := by
    intro other near
    rw [beq_eq_false_iff_ne]
    intro same
    exact before other near (by simp [kindAt?, same, Nat.lt_of_lt_of_le near within])
  rcases Nat.lt_or_eq_of_le within with inside | rfl
  · rw [List.findIdx_eq inside]
    exact ⟨by simpa using here _ (by simp [kindAt?, inside]), unlike⟩
  · rw [List.findIdx_eq_length]
    intro token mem
    obtain ⟨other, near, rfl⟩ := List.mem_iff_getElem.mp mem
    exact unlike other near

namespace Tiles

theorem openingPlace_eq (tiles : Tiles tokens opening close spans) :
    openingPlace tokens = opening := by
  refine findIdx_kind_eq (Nat.le_of_lt (lt_length_of_kindAt? tiles.opens)) ?_ ?_
  · intro found stands
    rw [tiles.opens] at stands
    exact (Option.some.inj stands).symm
  · intro other before stands
    rw [tiles.front.padding other (Nat.zero_le _) before] at stands
    cases stands

theorem closingPlace_eq (tiles : Tiles tokens opening close spans) :
    closingPlace tokens = close :=
  findIdx_kind_eq tiles.close_le tiles.closes tiles.unclosed

end Tiles

end Token

/--
Reading any comment puts its entries one behind the other; when every rule
keeps payloads as they are written, the entries tile the comment.
-/
theorem tiling_of_read {dialect : Dialect} {text : Text} {document : Document}
    (forward : dialect.MovesForward) (run : dialect.read text = .ok document) :
    ∃ spans : List Span, document.comment.entries.map Entry.span? = spans.map some ∧
      spans.Pairwise Span.Precedes ∧ (∀ span ∈ spans, span.stop ≤ document.tokens.length) ∧
        (dialect.OnlyVerbatim → Tiling document spans) := by
  obtain ⟨spans, spans?, precede, within⟩ := Dialect.ordered_of_read forward run
  rw [← Dialect.comment_of_read run] at spans?
  refine ⟨spans, spans?, precede, within, fun verbatim => ?_⟩
  obtain ⟨opening, close, others, others?, tiles, opened⟩ := Dialect.opened_of_read verbatim run
  obtain rfl : others = spans := by
    rw [← Dialect.comment_of_read run, spans?] at others?
    exact ((List.map_inj_right fun _ _ => Option.some.inj).mp others?).symm
  constructor
  · intro span mem
    rw [tiles.openingPlace_eq, tiles.closingPlace_eq]
    exact tiles.inside span mem
  · intro place kind low high stands breaks padding
    rw [tiles.openingPlace_eq] at low
    rw [tiles.closingPlace_eq] at high
    have covered := opened.covered (Nat.succ_le_of_lt low) high stands
    obtain ⟨span, mem, holds⟩ := covered.resolve_left (not_or.mpr ⟨breaks, padding⟩)
    refine ⟨span, ⟨mem, holds⟩, fun other among => ?_⟩
    exact Span.eq_of_contains precede among.1 mem among.2 holds
  · exact fun item mem => Dialect.reflects_of_wasRead verbatim (Dialect.wasRead_of_read forward run item mem)

/-- Prose on the opening line, an empty line, a payload over two lines and a tag kept as written. -/
theorem tiling_of_read_wrapped :
    let dialect : Dialect := ⟨[.verbatim ["@raw".toList]], .plain⟩
    let spans : List Span := [⟨2, 1⟩, ⟨4, 0⟩, ⟨6, 10⟩, ⟨18, 3⟩]
    ∃ document, dialect.read "/** a\n *\n * @b (1,\n *  2)c\n * @raw d".toList = .ok document ∧
      document.comment.entries.map Entry.span? = spans.map some ∧
        spans.Pairwise Span.Precedes ∧ (∀ span ∈ spans, span.stop ≤ document.tokens.length) ∧
          Tiling document spans := by
  intro dialect spans
  have run : dialect.read "/** a\n *\n * @b (1,\n *  2)c\n * @raw d".toList = .ok _ := rfl
  have verbatim : dialect.OnlyVerbatim := fun rule mem =>
    ⟨["@raw".toList], List.mem_singleton.mp mem⟩
  obtain ⟨others, others?, precede, within, tiling⟩ := tiling_of_read verbatim.movesForward run
  obtain rfl : spans = others := by
    refine (List.map_inj_right fun _ _ => Option.some.inj).mp ?_
    rw [← others?]
    rfl
  exact ⟨_, run, others?, precede, within, tiling verbatim⟩

end DocComment
