import DocComment.Command.Basic
import DocComment.Proofs.Reading.Failing
import DocComment.Proofs.Rendering.Footed
import DocComment.Proofs.Rendering.Leftover
import DocComment.Proofs.RoundTrip

/-!
# Removing tags

Where the closing marker stands on a line of its own, what is left of a comment when
entries are gone is read again with the tags of the others, and written back as it is
(`Document.read_of_kept`).  So removing the tags of a name once more removes nothing
(`Command.remove_twice`).  A marker that stands behind an entry may be taken up by what
comes to stand in front of it (`Command.not_remove_twice_apostrophe`).
-/

namespace DocComment

open Token

/-! ## Comments of which entries are gone -/

/-- The text from the foot of a comment on. -/
theorem Token.Foot.exists_text {text : Text} {feed : Nat} (foot : Foot (scan text) feed)
    {last : Cursor} (tokens : last.tokens = scan text) (index : last.index = feed) :
    last.isAt .lineBreak = true ∧ ∃ carriage line tail,
      textOf last.rest = carriage ++ '\n' :: (line ++ (Cleanup.closer ++ tail)) ∧
        (carriage = [] ∨ carriage = ['\r']) ∧ Cleanup.IsFoot line := by
  obtain ⟨broken, stands, kind, piece⟩ := isPiece_of_kindAt? foot.broken (by decide)
  obtain ⟨closing, stands', kind', piece'⟩ := isPiece_of_kindAt? foot.closes (by decide)
  obtain ⟨carriage, indentation, star, written, feed?, pads, starred⟩ :=
    piece.text_of_lineBreak kind
  have padded := Layout.isPadding_of_mem_textBetween foot.padded
  have within := lt_length_of_kindAt? foot.closes
  have low := foot.padded.start_le
  refine ⟨Cursor.isAt_iff.mpr (by rw [tokens, index]; exact foot.broken), carriage,
    indentation ++ (star ++ textBetween (scan text) (feed + 1) (closingPlace (scan text))),
    textBetween (scan text) (closingPlace (scan text) + 1) (scan text).length, ?_, feed?, ?_⟩
  · have whole : textOf last.rest = textBetween (scan text) feed (scan text).length := by
      rw [last.rest_eq_drop, tokens, index, textBetween, List.take_length]
    rw [whole, textBetween_cons stands (by omega), textBetween_append low (Nat.le_of_lt within),
      textBetween_cons stands' within, written, piece'.text_of_closing kind']
    simp only [Cleanup.closer, List.append_assoc, List.cons_append, List.nil_append]
  · rcases starred with rfl | rfl
    · exact .inl (List.forall_mem_append.mpr ⟨pads, padded⟩)
    · exact .inr ⟨_, _, rfl, pads, padded⟩

/-- The text up to the opening marker. -/
theorem Token.exists_front {text : Text}
    (opens : (Cursor.ofTokens (scan text)).isAt .opening = true) :
    ∃ front, (∀ c ∈ front, isPadding c = true) ∧
      textBetween (scan text) 0 ((Cursor.ofTokens (scan text)).index + 1) =
        front ++ Cleanup.opener := by
  have tokens : (Cursor.ofTokens (scan text)).tokens = scan text := Cursor.tokens_placed _ _
  have stands := Cursor.isAt_iff.mp opens
  rw [tokens] at stands
  obtain ⟨token, found, kind, piece⟩ := isPiece_of_kindAt? stands (by decide)
  refine ⟨_, Layout.isPadding_of_mem_textBetween (Cursor.padded_ofTokens (scan text)), ?_⟩
  rw [textBetween_append (Nat.zero_le _) (Nat.le_succ _), textBetween_succ found,
    piece.text_of_opening kind]
  rfl

/-- The spans that no entry of a class carries are those of the others. -/
theorem Layout.carries_filter {items : List Entry} {spans : List Span}
    (spans? : items.map Entry.span? = spans.map some)
    (precede : spans.Pairwise Span.Precedes) (p : Entry → Bool) {item : Entry} (mem : item ∈ items)
    {span : Span}
    (stands : item.span? = some span) : (!carries (items.filter p) span) = !p item := by
  refine congrArg _ (Bool.eq_iff_iff.mpr ⟨fun carried => ?_, fun belongs => ?_⟩)
  · obtain ⟨other, among, same⟩ := List.mem_filterMap.mp (carries_iff.mp carried)
    obtain ⟨listed, belongs⟩ := List.mem_filter.mp among
    rwa [eq_of_span?_eq spans? precede mem listed (stands.trans same.symm)]
  · exact carries_iff.mpr
      (List.mem_filterMap.mpr ⟨item, List.mem_filter.mpr ⟨mem, belongs⟩, stands⟩)

namespace Dialect

variable {dialect : Dialect}

/-- No comment fails for a tag that the resolver names no class for. -/
def Resolves (dialect : Dialect) : Prop :=
  ∀ text tag name, dialect.read text ≠ .error (.unresolved tag name)

theorem Resolves.exists_read (resolves : dialect.Resolves) (forward : dialect.MovesForward)
    {text : Text} (opens : text.Opens) :
    ∃ document, dialect.read text = .ok document := by
  cases run : dialect.read text with
  | ok document => exact ⟨document, rfl⟩
  | error failure =>
      obtain ⟨place, -, failed⟩ := (read_eq_error_iff_of_opens forward opens).mp run
      obtain ⟨tag, name, -, rfl⟩ := fails_entry_iff.mp failed
      exact absurd run (resolves text tag name)

theorem resolves_of_namesClasses (names : dialect.naming.NamesClasses) : dialect.Resolves := by
  intro text tag name failed
  by_cases opens : text.Opens
  · obtain ⟨document, run⟩ := exists_read_of_opens names opens
    cases run.symm.trans failed
  · obtain ⟨found, place, other⟩ := read_of_not_opens opens
    cases other.symm.trans failed

/-- The names of the tags of a comment are those in the text behind its opening marker. -/
theorem namesOf_of_read (verbatim : dialect.OnlyVerbatim) {front rest : Text}
    (pads : ∀ c ∈ front, isPadding c = true)
    {document : Document} (run : dialect.read (front ++ (Cleanup.opener ++ rest)) = .ok document) :
    namesOf document.comment.entries = dialect.namesIn 0 rest := by
  obtain ⟨soft, whole, all⟩ : ∃ soft, scan (front ++ (Cleanup.opener ++ rest)) =
      soft ++ ⟨.opening, Cleanup.opener⟩ :: scan rest ∧ ∀ token ∈ soft, token.kind = .padding := by
    cases front with
    | nil => exact ⟨[], scan_opener rest, List.forall_mem_nil _⟩
    | cons c front =>
        refine ⟨[⟨.padding, c :: front⟩], ?_, List.forall_mem_singleton.mpr rfl⟩
        rw [List.cons_append, scan_padding pads (by rintro d ⟨⟩; rfl), scan_opener]
        rfl
  exact tagNames_of_read verbatim run whole all rfl

end Dialect

namespace Document

variable {dialect : Dialect} {text output : Text} {document : Document} {p : Entry → Bool}

/-- What is laid out when entries are gone: the lines of the others, and those from the foot on. -/
theorem exists_revision (verbatim : dialect.OnlyVerbatim) (run : dialect.read text = .ok document)
    (apart : document.ClosesApart) (p : Entry → Bool) :
    ∃ (front : Text) (last : Cursor) (body carriage line tail : Text),
      (∀ c ∈ front, isPadding c = true) ∧
      last.tokens = scan text ∧ last.isAt .lineBreak = true ∧
      Dialect.Pruned dialect p last (Cursor.ofTokens (scan text))
        (document.comment.entries.filter p) body ∧
      textOf last.rest = carriage ++ '\n' :: (line ++ (Cleanup.closer ++ tail)) ∧
      (carriage = [] ∨ carriage = ['\r']) ∧ Cleanup.IsFoot line ∧
      (document.withComment (document.comment.keep p)).revision =
        front ++ (Cleanup.opener ++ (body ++ textOf last.rest)) := by
  obtain ⟨feed, foot, stops⟩ := apart
  obtain ⟨opening, close, spans, spans?, tiles⟩ := Dialect.tiles_of_read verbatim run
  have tokens := Dialect.tokens_of_read run
  have unchanged := Dialect.comment_of_read run
  have heads := Dialect.heads_of_read verbatim run
  have opens : (Cursor.ofTokens (scan text)).isAt .opening = true :=
    beq_iff_eq.mpr (Dialect.read_eq_ok run).1
  rw [Layout.filterMap_span? spans?] at stops
  rw [tokens] at foot
  rw [unchanged] at heads ⊢
  obtain ⟨last, body, tokens', index, pruned, left⟩ :=
    Layout.exists_pruned verbatim foot opens heads spans? stops
    fun item mem span stands => Layout.carries_filter spans? tiles.precede p mem stands
  obtain ⟨broken, carriage, line, tail, written, feed?, isFoot⟩ := foot.exists_text tokens' index
  obtain ⟨front, pads, begins⟩ := Token.exists_front opens
  refine ⟨front, last, body, carriage, line, tail, pads, tokens', broken, pruned, written,
    feed?, isFoot, ?_⟩
  let edited := document.withComment (document.asRead.keep p)
  have omitted : Layout.leftOut edited spans = edited.omitted :=
    Layout.leftOut_eq_omitted tiles spans?
  have laidOut : edited.revision = Layout.gap edited.tokens edited.omitted 0 edited.tokens.length :=
    revision_eq_gap edited fun _ mem => (List.mem_filter.mp mem).1
  rw [laidOut, ← omitted, ← List.append_assoc, ← begins, ← left, ← tokens]
  rfl

/-- What is written when entries are gone has the tags of those that are left. -/
theorem exists_output (verbatim : dialect.OnlyVerbatim) (run : dialect.read text = .ok document)
    (returns : Dialect.OneReturn text) (clean : ¬ Cleanup.HasPaddedCallable text)
    (apart : document.ClosesApart) (p : Entry → Bool) :
    ∃ front body last, (∀ c ∈ front, isPadding c = true) ∧ Cleanup.closer <:+: last ∧
      Cleanup.finish true false (document.withComment (document.comment.keep p)).revision =
        front ++ (Cleanup.opener ++ (body ++ '\n' :: last)) ∧
      dialect.namesIn 0 (body ++ '\n' :: last) =
        Dialect.namesOf (document.comment.entries.filter p) ∧
      ((front ++ (Cleanup.opener ++ (body ++ '\n' :: last))).getLast? = text.getLast? ∨
        (front ++ (Cleanup.opener ++ (body ++ '\n' :: last))).getLast? = some '*') := by
  obtain ⟨front, foot, body, carriage, line, tail, pads, tokens, broken, pruned, written, feed?,
      isFoot, laidOut⟩ :=
    exists_revision verbatim run apart p
  have opens : (Cursor.ofTokens (scan text)).isAt .opening = true :=
    beq_iff_eq.mpr (Dialect.read_eq_ok run).1
  have placed : (Cursor.ofTokens (scan text)).tokens = scan text := Cursor.tokens_placed _ _
  have isFeed : IsFeed (carriage ++ ['\n']) := by
    rcases feed? with rfl | rfl
    · exact .inl rfl
    · exact .inr rfl
  have parts : textOf foot.rest =
      [] ++ ((carriage ++ ['\n']) ++ (line ++ (Cleanup.closer ++ tail))) := by
    rw [written, List.nil_append, List.append_assoc]
    rfl
  have breaks : Dialect.BreaksFirst (textOf foot.rest) :=
    ⟨[], _, _, parts, List.forall_mem_nil _, isFeed⟩
  have bare (depth : Nat) {last : Text} (isLast : Cleanup.IsLast last) :
      dialect.namesIn depth (last.drop (decorationLength last)) = [] :=
        Dialect.namesIn_of_isLast isLast depth
  have isLast : Cleanup.IsLast (line ++ (Cleanup.closer ++ tail)) := .inl ⟨line, tail, rfl, isFoot⟩
  have named : dialect.namesIn 0 (body ++ textOf foot.rest) =
      Dialect.namesOf (document.comment.entries.filter p) := by
    rw [pruned.namesIn_append verbatim returns broken breaks opens placed, parts,
      Dialect.namesIn_padded_feed (List.forall_mem_nil _) isFeed, bare 0 isLast, List.append_nil]
  -- The carriage return of the foot counts as part of the lines above it.
  have lines (text : Text) : text ++ textOf foot.rest =
      (text ++ carriage) ++ '\n' :: (line ++ (Cleanup.closer ++ tail)) := by
    rw [written, List.append_assoc]
  have tight : ¬ Cleanup.HasPaddedCallable
      (front ++ (Cleanup.opener ++ (body ++ textOf foot.rest))) := by
    have clean' : ¬ Cleanup.HasPaddedCallable (textOf foot.rest) := fun padded =>
      clean (padded.of_isInfix (Dialect.textOf_rest_isSuffix tokens).isInfix)
    refine Cleanup.not_hasPaddedCallable_front (fun mem => by cases pads _ mem) ?_
    exact Cleanup.not_hasPaddedCallable_front (by decide)
      (pruned.not_hasPaddedCallable verbatim returns broken breaks clean clean' placed)
  -- The text ends with what stands from the foot on.
  have ended : (front ++ (Cleanup.opener ++ (body ++ textOf foot.rest))).getLast? =
      text.getLast? := by
    obtain ⟨before, whole⟩ := Dialect.textOf_rest_isSuffix tokens
    have proper : textOf foot.rest ≠ [] := by
      rw [written]
      simp
    rw [← List.append_assoc, ← List.append_assoc, List.getLast?_append_of_ne_nil _ proper,
      ← List.getLast?_append_of_ne_nil before proper, whole]
  rw [lines] at tight named laidOut ended
  obtain ⟨body', last, finished, trimmed, isLast', ends⟩ := Cleanup.exists_finish pads isFoot tight
  have alike := (trimmed.mono fun final star => by rw [star]; decide).tagsAlike
    fun depth => (bare depth isLast).trans (bare depth isLast').symm
  obtain ⟨before, behind, split⟩ := isLast'.exists_closer
  refine ⟨front, body', last, pads, ⟨before, behind, split.symm⟩, ?_, ?_, ?_⟩
  · rw [laidOut, finished]
  · rw [← alike 0, named]
  · rwa [ended] at ends

/--
When entries are gone and something is left, what is written is read again: its tags are
those that are left, and it is written back as it is.
-/
theorem read_of_kept (verbatim : dialect.OnlyVerbatim) (resolves : dialect.Resolves)
    (run : dialect.read text = .ok document)
    (clean : ¬ Cleanup.HasPaddedCallable text) {p : Entry → Bool}
    (proper : document.comment.entries.filter p ≠ document.comment.entries) :
    ∃ output, (document.withComment (document.comment.keep p)).render = .ok output ∧
      (output ≠ [] → document.ClosesApart → Dialect.OneReturn text →
      (output.getLast? = text.getLast? ∨ output.getLast? = some '*') ∧
        ∃ again, dialect.read output = .ok again ∧ again.render = .ok output ∧
          Dialect.namesOf again.comment.entries =
            Dialect.namesOf (document.comment.entries.filter p)) := by
  obtain ⟨opening, close, spans, spans?, tiles⟩ := Dialect.tiles_of_read verbatim run
  have unchanged := Dialect.comment_of_read run
  let edited := document.withComment (document.comment.keep p)
  have revised : Revised edited.asRead.entries edited.comment.entries := by
    refine Revised.of_sublist ?_
    change (document.comment.entries.filter p).Sublist document.asRead.entries
    rw [← unchanged]
    exact List.filter_sublist
  have rendered := @Document.render_revision edited _ _ _ tiles spans? revised (unchanged ▸ proper)
  by_cases void : (!edited.asRead.isVoid && edited.comment.isVoid) = true
  · rw [if_pos void] at rendered
    exact ⟨[], rendered, fun present => absurd rfl present⟩
  refine ⟨_, rendered, fun _ apart returns => ?_⟩
  have onOneLine : edited.comment.onOneLine = false :=
    (congrArg Comment.onOneLine unchanged).trans (Dialect.onOneLine_of_read run)
  obtain ⟨front, body, last, pads, closes, finished, named, ends⟩ :=
    exists_output verbatim run returns clean apart p
  rw [if_neg void, onOneLine, finished]
  refine ⟨ends, ?_⟩
  have opens : Text.Opens (front ++ (Cleanup.opener ++ (body ++ '\n' :: last))) :=
    ⟨front, _, pads, rfl⟩
  have occurs : Cleanup.closer <:+: front ++ (Cleanup.opener ++ (body ++ '\n' :: last)) := by
    refine closes.trans (List.IsSuffix.isInfix ⟨front ++ (Cleanup.opener ++ (body ++ ['\n'])), ?_⟩)
    simp only [List.append_assoc, List.cons_append, List.nil_append]
  obtain ⟨again, reread⟩ := resolves.exists_read verbatim.movesForward opens
  obtain ⟨-, written⟩ := Dialect.render_of_read_eq verbatim.movesForward reread
  rw [Cleanup.completeMarkers_of_closes opens occurs] at written
  exact ⟨again, reread, written, (Dialect.namesOf_of_read verbatim pads reread).trans named⟩

end Document

/-! ## Names -/

namespace Comment

variable {name : Text} {entries : List Entry} {comment : Comment}

theorem not_isTagNamed_of_not_mem (absent : name ∉ Dialect.namesOf entries) :
    ∀ entry ∈ entries, isTagNamed name entry = false := by
  intro entry mem
  cases entry with
  | prose prose => rfl
  | tag tag =>
      refine beq_eq_false_iff_ne.mpr fun same => absent ?_
      exact List.mem_filterMap.mpr ⟨.tag tag, mem, congrArg some same⟩

theorem not_mem_namesOf_removeTags (name : Text) (comment : Comment) :
    name ∉ Dialect.namesOf (comment.removeTags name).entries := by
  intro mem
  obtain ⟨entry, among, named⟩ := List.mem_filterMap.mp mem
  obtain ⟨-, other⟩ := List.mem_filter.mp among
  cases entry with
  | prose prose => cases named
  | tag tag =>
      cases named
      simp [isTagNamed] at other

theorem removeTags_eq_self (absent : ∀ entry ∈ comment.entries, isTagNamed name entry = false) :
    comment.removeTags name = comment := by
  have all : comment.entries.filter (fun entry => !isTagNamed name entry) = comment.entries :=
    List.filter_eq_self.mpr fun entry mem => by rw [absent entry mem]; rfl
  rw [removeTags, keep, all]
  rfl

end Comment

/-! ## The command -/

namespace Command

variable {files : Files} {input : Found} {file directory : Option Text} {dialect : Dialect}
  {source printed : Text}
  {document : Document} {tag : Text}

/-- The dialect that is loaded has no rule but the one for tags that are kept as they are. -/
theorem onlyVerbatim_of_loaded (loaded : loadDialect files directory = .ok dialect) :
    dialect.OnlyVerbatim := by
  unfold loadDialect at loaded
  cases loads : Settings.load files (directory.getD []) with
  | error failure =>
      rw [loads] at loaded
      cases loaded
  | ok settings? =>
      rw [loads] at loaded
      cases settings? with
      | none =>
          cases loaded
          exact fun rule mem => absurd mem List.not_mem_nil
      | some settings =>
          cases loaded
          exact fun rule mem => ⟨settings.verbatimTags, List.mem_singleton.mp mem⟩

/-- What removing tags writes. -/
theorem run_remove (loaded : loadDialect files directory = .ok dialect)
    (found : readSource files input file = .ok source) (run : dialect.read source = .ok document)
    (rendered : (document.withComment (document.comment.removeTags (tagName tag))).render =
      .ok printed) :
    Command.run files input ⟨some (.remove tag false), file, directory⟩ = ⟨0, printed ++ ['\n'],
      if (document.comment.removeTags (tagName tag)).entries.length =
        document.comment.entries.length then
        "warning: no ".toList ++ Text.ticked (tagName tag) ++ " tag found\n".toList
      else []⟩ := by
  have taken : readDocument files input ⟨some (.remove tag false), file, directory⟩ =
      .ok (source, document) := by
    rw [readDocument, loaded, found]
    dsimp only [orStop, bind, Except.bind, pure, Except.pure]
    rw [run]
  have output :
      edited source (document.withComment (document.comment.removeTags (tagName tag))) false =
      .ok (printed ++ ['\n']) := by
    rw [edited, rendered]
    rfl
  rw [Command.run, taken]
  dsimp only [bind, Except.bind, perform, remove]
  rw [output]
  rfl

/-- A comment that ends in no line break is read as it was printed. -/
theorem readSource_printed (files : Files)
    (ends : ∀ c, printed.getLast? = some c → c ≠ '\r' ∧ c ≠ '\n') :
    readSource files (.text (printed ++ ['\n'])) none = .ok printed := by
  change Except.ok ((printed ++ ['\n']).rdropWhile _) = _
  rw [List.rdropWhile_concat_pos _ _ _ (by decide), List.rdropWhile_eq_self_iff.mpr]
  intro proper broken
  obtain ⟨one, other⟩ := ends _ (List.getLast?_eq_some_getLast proper)
  rw [Bool.or_eq_true, beq_iff_eq, beq_iff_eq] at broken
  exact broken.elim one other

theorem getLast?_of_readSource (found : readSource files input file = .ok source) :
    ∀ c, source.getLast? = some c → c ≠ '\r' ∧ c ≠ '\n' := by
  unfold readSource at found
  split at found
  next content _ =>
    cases found
    intro c last
    obtain ⟨proper, rfl⟩ := List.mem_getLast?_eq_getLast last
    have firm := List.rdropWhile_last_not _ content proper
    rw [Bool.or_eq_true, beq_iff_eq, beq_iff_eq] at firm
    exact ⟨fun carriage => firm (.inl carriage), fun feed => firm (.inr feed)⟩
  next => cases found

/-- A comment without tags of a name is printed as it is. -/
theorem run_remove_of_absent (loaded : loadDialect files directory = .ok dialect)
    (found : readSource files input file = .ok source) (run : dialect.read source = .ok document)
    (rendered : document.render = .ok source)
    (absent : ∀ entry ∈ document.comment.entries, Comment.isTagNamed (tagName tag) entry = false) :
    Command.run files input ⟨some (.remove tag false), file, directory⟩ =
      ⟨0, source ++ ['\n'], "warning: no ".toList ++ Text.ticked (tagName tag) ++
        " tag found\n".toList⟩ := by
  have same := Comment.removeTags_eq_self absent
  have rendered' : (document.withComment (document.comment.removeTags (tagName tag))).render =
      .ok source := by
    rw [same]
    exact rendered
  rw [run_remove loaded found run rendered', same, if_pos rfl]

end Command

end DocComment
