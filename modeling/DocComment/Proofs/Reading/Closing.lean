import DocComment.Proofs.Reading.Coverage
import DocComment.Proofs.Reading.Sealing

/-!
# Where a comment ends

An entry ends in front of the first closing marker behind the opening one
unless a token of the comment hides that marker; an apostrophe suffices
(`endsInTime_iff_of_read`).
-/

namespace DocComment

open Token

/-! ## Entries -/

namespace Token

/-- A token that becomes part of a type is sealed when it holds no closing marker. -/
theorem sealed_of_isPiece {text : Text} {token : Token} (mem : token ∈ scan text)
    (piece : token.kind.isPiece = true) (unclosed : token.text.Unclosed) : token.text.Sealed := by
  have known : token.kind ≠ .other := fun other => by
    rw [other] at piece
    cases piece
  obtain ⟨c, rest, length, cut, written⟩ := (isPiece_of_mem_scan mem known).exists_cut rfl
  obtain ⟨head, last⟩ := cut.of_isPiece piece
  refine ⟨unclosed, ?_, ?_⟩
  · rw [written, List.head?_cons]
    exact fun same => head (Option.some.inj same)
  · rw [written]
    exact last

end Token

/-- The texts that an entry holds. -/
def Entry.texts : Entry → List Text
  | .prose p => [p.text]
  | .tag t => t.name :: t.payload.render :: (t.payload.description?.toList ++ t.wording.toList)

namespace Cursor

open Token

/-- What stands ahead of a cursor up to the closing marker belongs to a class if
every such token does. -/
theorem shows_of_places {p : Text → Prop} {cursor : Cursor}
    (all : ∀ place token, cursor.index ≤ place → cursor.tokens[place]? = some token →
      (∀ other, cursor.index ≤ other → other ≤ place →
        kindAt? cursor.tokens other ≠ some .closing) →
        token.kind.isPiece = true → p token.text) : cursor.Shows p := by
  intro token mem piece
  obtain ⟨count, near, found⟩ := List.mem_iff_getElem.mp mem
  have here (other : Nat) (before : other ≤ count) :
      ∃ next, cursor.tokens[cursor.index + other]? = some next ∧ next.kind ≠ .closing ∧
        (other = count → next = token) := by
    obtain ⟨next, stands, goesOn⟩ := exists_of_lt_takeWhile (Nat.lt_of_le_of_lt before near)
    refine ⟨next, ?_, bne_iff_ne.mp goesOn, ?_⟩
    · rw [← List.getElem?_drop, ← rest_eq_drop, stands]
    · rintro rfl
      have taken := (List.takeWhile_prefix _).getElem near
      rw [← found, taken]
      exact Option.some.inj (stands.symm.trans (List.getElem?_eq_getElem _))
  obtain ⟨next, stands, _, same⟩ := here count (Nat.le_refl _)
  obtain rfl := same rfl
  refine all _ _ (Nat.le_add_right _ _) stands (fun other low high closes => ?_) piece
  obtain ⟨distance, rfl⟩ := Nat.exists_eq_add_of_le low
  obtain ⟨found, standing, goesOn, _⟩ := here distance (by omega)
  rw [kindAt?, standing] at closes
  exact goesOn (Option.some.inj closes)

end Cursor

namespace Dialect

variable {text : Text} {opening close : Nat} {spans : List Span} {cursor after : Cursor}
  {found : Entry}

section Unclosed

variable (tokens : cursor.tokens = scan text) (tiles : Tiles (scan text) opening close spans)
  (high : cursor.index ≤ close)
include tokens tiles high

/-- What a reader crosses without a closing marker ends in front of the first one. -/
theorem index_le_close (crossed : cursor.Crosses (· ≠ .closing) after) : after.index ≤ close := by
  rcases Nat.lt_or_ge close after.index with passed | within
  · have inside := after.index_le_length
    rw [crossed.tokens, tokens] at inside
    obtain ⟨kind, stands⟩ := exists_kindAt? (Nat.lt_of_lt_of_le passed inside)
    exact absurd (tiles.closes kind stands)
      (crossed.kinds close kind high passed (tokens ▸ stands))
  · exact within

variable (unclosed : Text.Unclosed (textBetween (scan text) (opening + 1) close))
  (low : opening < cursor.index)
include unclosed low

theorem shows_sealed : cursor.Shows Text.Sealed := by
  refine Cursor.shows_of_places fun place token behind stands goesOn piece => ?_
  rw [tokens] at stands goesOn
  have inside : place < close := by
    rcases Nat.lt_or_ge place close with inside | outside
    · exact inside
    · have within := (List.getElem?_eq_some_iff.mp stands).1
      obtain ⟨kind, closing⟩ := exists_kindAt? (Nat.lt_of_le_of_lt outside within)
      have same := tiles.closes kind closing
      rw [same] at closing
      exact absurd closing (goesOn close high outside)
  refine sealed_of_isPiece (List.mem_of_getElem? stands) piece (unclosed.of_isInfix ?_)
  rw [← textBetween_succ stands]
  exact textBetween_isInfix (Nat.le_trans low behind) (Nat.le_succ _) inside

/-- No closing marker gets into a tag when none stands in the comment. -/
theorem unclosed_of_tag (stands : cursor.isAt .tag = true)
    (run : tag plain cursor = .ok found after) : ∀ text ∈ found.texts, text.Unclosed := by
  obtain ⟨name, middle, content, read, named, taken, rfl, _⟩ := tag_eq_ok run
  have onlyVerbatim : plain.OnlyVerbatim := by simp [OnlyVerbatim, plain]
  have front := crosses_of_tagName stands named
  have crossed :=
    (crosses_payload (fun _ same => same) onlyVerbatim.crosses name middle).of_ok taken
  have first := index_lt_of_tagName stands named
  have later := crossed.index_le
  have within := index_le_close tokens tiles high (front.trans crossed)
  have slice (start stop : Nat) (behind : cursor.index ≤ start) (proper : start ≤ stop)
      (ahead : stop ≤ read.index) : Text.Unclosed (textBetween (scan text) start stop) :=
    unclosed.of_isInfix (textBetween_isInfix (by omega) proper (by omega))
  have known := front.tokens.trans tokens
  have begins : name <+: textBetween cursor.tokens cursor.index read.index :=
    name_prefix_of_tagName stands named (by omega) (Or.inr later)
  rw [tokens] at begins
  refine List.forall_mem_cons.mpr
    ⟨(slice _ _ (Nat.le_refl _) (by omega) (Nat.le_refl _)).of_isInfix begins.isInfix, ?_⟩
  rcases payload_plain_eq_ok taken with ⟨kind, subject, typed, described, -, ran, last, rfl⟩ |
    ⟨written, given, rfl⟩
  · have subjected := (Payload.Grammar.crosses_subject kind middle).of_ok ran
    have parts := (Payload.Grammar.gives_subject kind middle
      (shows_sealed known tiles (by omega) unclosed (by omega)) subject typed ran).2
    have beyond := subjected.index_le
    have ahead := ((Payload.Grammar.crosses_description typed).of_ok last).index_le
    have inside := slice typed.index read.index (by omega) ahead (Nat.le_refl _)
    rw [← known, ← subjected.tokens] at inside
    obtain ⟨words, wording⟩ := Payload.Grammar.unclosed_of_description last inside
    refine List.forall_mem_cons.mpr ⟨?_, List.forall_mem_cons.mpr ⟨words, fun text mem => ?_⟩⟩
    · refine Text.unclosed_join (by decide) (by decide) fun part mem => ?_
      rcases List.mem_append.mp (List.mem_of_mem_filter mem) with among | last
      · exact (parts part among).unclosed
      · rw [List.mem_singleton.mp last]
        exact words
    · exact wording text (Option.mem_toList.mp mem)
  · cases given
    refine List.forall_mem_singleton.mpr
      (Text.Unclosed.of_isInfix ?_ (Text.trimEnd_isPrefix _).isInfix)
    refine Payload.Grammar.unclosed_undecorated ?_ false
    rw [Cursor.textOf_take_rest, known]
    exact slice _ _ (Nat.le_of_lt first) later (Nat.le_refl _)

end Unclosed

/-- No closing marker gets into an entry when none stands in the comment. -/
theorem unclosed_of_wasRead (tiles : Tiles (scan text) opening close spans)
    (unclosed : Text.Unclosed (textBetween (scan text) (opening + 1) close))
    (read : plain.WasRead (scan text) found) {span : Span} (span? : found.span? = some span)
    (low : opening < span.start) (high : span.stop ≤ close) :
    ∀ text ∈ found.texts, text.Unclosed := by
  have proper := span.start_le_stop
  obtain ⟨before, behind, tokens, ⟨stands, run⟩ | run⟩ := read
  · have start : span.start = before.index := by
      obtain ⟨_, _, _, _, _, _, rfl, _⟩ := tag_eq_ok run
      cases span?
      rfl
    exact unclosed_of_tag tokens tiles (by omega) unclosed (by omega) stands run
  · obtain ⟨_, other, _, rfl⟩ := prose_eq_ok run
    cases span?
    refine List.forall_mem_singleton.mpr (unclosed.of_isInfix ((Text.trim_isInfix _).trans ?_))
    rw [tokens]
    exact textBetween_isInfix low proper high

end Dialect

/-! ## Spans -/

/-- A span ends in front of every closing marker that begins behind the opening marker. -/
def Span.EndsInTime (tokens : List Token) (span : Span) : Prop :=
  ∀ before behind : Text, textOf tokens = before ++ (Cleanup.closer ++ behind) →
    (textBetween tokens 0 (openingPlace tokens + 1)).length ≤ before.length →
      (textBetween tokens 0 span.stop).length ≤ before.length

namespace Token

variable {tokens : List Token} {place : Nat}

/-- Behind a stretch without closing markers a span that ends within it ends in time. -/
theorem endsInTime_of_unclosed {span : Span} {close : Nat}
    (unclosed : Text.Unclosed (textBetween tokens (openingPlace tokens + 1) close))
    (closes : (textOf (tokens.drop close)).head? ≠ some '/')
    (low : openingPlace tokens + 1 ≤ close) (high : span.stop ≤ close) :
    span.EndsInTime tokens := by
  intro before behind split far
  have whole := textOf_eq_append tokens close
  rw [textBetween_append (Nat.zero_le _) low, List.append_assoc] at whole
  rw [whole] at split
  obtain ⟨more, rfl⟩ := List.prefix_of_prefix_length_le (List.prefix_append _ _)
    (split ▸ List.prefix_append before _) far
  rw [List.append_assoc, List.append_cancel_left_eq] at split
  have beyond := unclosed.length_le (fun meet => closes meet.2) split
  calc
    (textBetween tokens 0 span.stop).length
      ≤ (textBetween tokens 0 close).length := length_textBetween_le (Nat.zero_le _) high
    _ = _ := by rw [textBetween_append (Nat.zero_le _) low, List.length_append]
    _ ≤ _ := Nat.add_le_add_left beyond _
    _ = _ := List.length_append.symm

/-- A span over a token that hides a closing marker does not end in time. -/
theorem not_endsInTime_of_hides {span : Span} (hidden : Hides tokens place)
    (low : openingPlace tokens < place) (high : place < span.stop) :
    ¬ span.EndsInTime tokens := by
  intro intime
  obtain ⟨token, before, behind, stands, inside, split⟩ := hidden.exists_split
  have ahead : textOf (tokens.drop place) = token.text ++ textOf (tokens.drop (place + 1)) := by
    obtain ⟨within, here⟩ := List.getElem?_eq_some_iff.mp stands
    rw [List.drop_eq_getElem_cons within, here, textOf_cons]
  have whole : textOf tokens =
      (textBetween tokens 0 place ++ before) ++ (Cleanup.closer ++ behind) := by
    rw [textOf_eq_append tokens place, ahead, split, List.append_assoc]
  have front : (textBetween tokens 0 (openingPlace tokens + 1)).length ≤
      (textBetween tokens 0 place).length := length_textBetween_le (Nat.zero_le _) low
  have reach : (textBetween tokens 0 (place + 1)).length ≤
      (textBetween tokens 0 span.stop).length := length_textBetween_le (Nat.zero_le _) high
  have far := intime _ _ whole (by rw [List.length_append]; omega)
  rw [textBetween_append (Nat.zero_le _) (Nat.le_succ place), textBetween_succ stands,
    List.length_append] at reach
  rw [List.length_append] at far
  omega

end Token

/-- What stands behind the entries begins with a closing marker or is nothing. -/
theorem Token.Tiles.head?_close {text : Text} {opening close : Nat} {spans : List Span}
    (tiles : Tiles (scan text) opening close spans) :
    (textOf ((scan text).drop close)).head? ≠ some '/' := by
  cases stands : (scan text)[close]? with
  | none =>
      rw [List.drop_eq_nil_iff.mpr (List.getElem?_eq_none_iff.mp stands)]
      exact nofun
  | some token =>
      have kind := tiles.closes token.kind (kindAt?_eq_some_iff.mpr ⟨token, stands, rfl⟩)
      have cut := isPiece_of_mem_scan (List.mem_of_getElem? stands) (by rw [kind]; decide)
      obtain ⟨within, here⟩ := List.getElem?_eq_some_iff.mp stands
      rw [List.drop_eq_getElem_cons within, here, textOf_cons, cut.text_of_closing kind]
      exact nofun

/--
In a comment of the plain dialect every entry ends in front of the first
closing marker exactly when no token between the markers hides one, and then
no closing marker gets into an entry.
-/
theorem endsInTime_iff_of_read {text : Text} {document : Document}
    (run : Dialect.plain.read text = .ok document) :
    ((∀ item ∈ document.comment.entries, ∀ span, item.span? = some span →
        span.EndsInTime document.tokens) ↔
      ∀ place, openingPlace document.tokens < place → place < closingPlace document.tokens →
        ¬ Hides document.tokens place) ∧
      ((∀ place, openingPlace document.tokens < place → place < closingPlace document.tokens →
          ¬ Hides document.tokens place) →
        ∀ item ∈ document.comment.entries, ∀ held ∈ item.texts, held.Unclosed) := by
  have onlyVerbatim : Dialect.plain.OnlyVerbatim := by simp [Dialect.OnlyVerbatim, Dialect.plain]
  obtain ⟨opening, close, spans, spans?, tiles, opened⟩ := Dialect.opened_of_read onlyVerbatim run
  rw [tiles.openingPlace_eq, tiles.closingPlace_eq]
  rw [Dialect.tokens_of_read run] at tiles opened ⊢
  rw [← Dialect.comment_of_read run] at spans?
  have among {item : Entry} (mem : item ∈ document.comment.entries) {span : Span}
      (span? : item.span? = some span) : span ∈ spans := by
    have found := List.mem_map_of_mem (f := Entry.span?) mem
    rw [spans?, span?] at found
    obtain ⟨_, mem, same⟩ := List.mem_map.mp found
    exact Option.some.inj same ▸ mem
  have stretch (shown : ∀ place, opening < place → place < close → ¬ Hides (scan text) place) :
      Text.Unclosed (textBetween (scan text) (opening + 1) close) :=
    unclosed_textBetween (fun place _ high => tiles.unclosed place high)
      fun place low high => shown place low high
  refine ⟨⟨fun intime place low high hidden => ?_, fun shown item mem span span? => ?_⟩,
    fun shown item mem => ?_⟩
  · obtain ⟨token, stands, hides⟩ := hidden
    have covered := opened.covered (Nat.succ_le_of_lt low) high (kindAt?_eq_some_iff.mpr ⟨token, stands, rfl⟩)
    obtain ⟨span, mem, holds⟩ := covered.resolve_left (by
      rintro (same | same) <;> simp [same] at hides)
    obtain ⟨item, inside, span?⟩ := List.mem_map.mp (spans?.symm ▸ List.mem_map_of_mem (f := some) mem)
    have within := (Span.contains_iff.mp holds).2
    refine not_endsInTime_of_hides ⟨token, stands, hides⟩ ?_ within (intime item inside span span?)
    rw [tiles.openingPlace_eq]
    exact low
  · have inside := tiles.inside span (among mem span?)
    have proper := span.start_le_stop
    refine @endsInTime_of_unclosed _ _ close ?_ tiles.head?_close ?_ inside.2
    · rw [tiles.openingPlace_eq]
      exact stretch shown
    · rw [tiles.openingPlace_eq]
      omega
  · obtain ⟨span, _, span?⟩ := List.mem_map.mp (spans? ▸ List.mem_map_of_mem (f := Entry.span?) mem)
    have inside := tiles.inside span (among mem span?.symm)
    have read := Dialect.wasRead_of_read onlyVerbatim.movesForward run item mem
    rw [Dialect.tokens_of_read run] at read
    exact Dialect.unclosed_of_wasRead tiles (stretch shown) read span?.symm inside.1 inside.2

/-- Quotes without a closing marker, an unknown character and a name hide nothing. -/
theorem endsInTime_iff_of_read_quoted :
    ∃ document, Dialect.plain.read "/** it's 'so'\n * @return \"a\" b/c */ d */".toList = .ok document ∧
      (∀ item ∈ document.comment.entries, ∀ span, item.span? = some span →
        span.EndsInTime document.tokens) ∧
        ∀ item ∈ document.comment.entries, ∀ held ∈ item.texts, held.Unclosed := by
  have run : Dialect.plain.read "/** it's 'so'\n * @return \"a\" b/c */ d */".toList = .ok _ := rfl
  have shown : ∀ place < closingPlace (scan "/** it's 'so'\n * @return \"a\" b/c */ d */".toList),
      ¬ Hides (scan "/** it's 'so'\n * @return \"a\" b/c */ d */".toList) place := by decide
  obtain ⟨spans, texts⟩ := endsInTime_iff_of_read run
  exact ⟨_, run, spans.mpr fun place _ => shown place, texts fun place _ => shown place⟩

/-- An apostrophe takes the rest of its line, and with it the closing marker. -/
theorem not_endsInTime_apostrophe :
    ¬ ∀ text document, Dialect.plain.read text = .ok document →
      ∀ item ∈ document.comment.entries, ∀ span, item.span? = some span →
        span.EndsInTime document.tokens := by
  intro intime
  have run : Dialect.plain.read "/** don't */".toList = .ok _ := rfl
  have late := intime _ _ run _ List.mem_cons_self _ rfl "/** don't ".toList [] rfl
  revert late
  decide

end DocComment
