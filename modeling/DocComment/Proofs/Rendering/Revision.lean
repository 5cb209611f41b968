import DocComment.Proofs.Rendering.Filling
import DocComment.Proofs.Rendering.InOrder

/-!
# Deleting and changing in place

When entries are only deleted and changed where they stand, the text is the
source with the deleted entries left out and the changed ones rewritten, every
other token as it was (`render_of_revised`).  What goes with a deleted entry is the
padding in front of it and one line break, and never a token of an entry that
stays.
-/

namespace DocComment

open Token

/-- Entries some of which were taken out and some of which were changed where they stand. -/
inductive Revised : List Entry → List Entry → Prop
  | nil : Revised [] []
  | delete (entry : Entry) {before after : List Entry} (rest : Revised before after) :
      Revised (entry :: before) after
  | keep {entry kept : Entry} {before after : List Entry} (same : kept.span? = entry.span?)
      (rest : Revised before after) : Revised (entry :: before) (kept :: after)

namespace Revised

variable {before after : List Entry}

theorem span?_sublist (revised : Revised before after) :
    (after.map Entry.span?).Sublist (before.map Entry.span?) := by
  induction revised with
  | nil => exact List.Sublist.refl _
  | delete entry _ ih => exact ih.cons _
  | keep same _ ih =>
      rw [List.map_cons, List.map_cons, same]
      exact ih.cons_cons _

/-- Where every entry that stays was read as it is, entries were only taken out. -/
theorem sublist {entries : List Entry} {spans : List Span}
    (spans? : entries.map Entry.span? = spans.map some) (precede : spans.Pairwise Span.Precedes)
    (revised : Revised before after) (front : ∀ entry ∈ before, entry ∈ entries)
    (back : ∀ entry ∈ after, entry ∈ entries) : after.Sublist before := by
  induction revised with
  | nil => exact List.Sublist.refl _
  | delete entry _ ih =>
      exact (ih (fun other mem => front other (List.mem_cons_of_mem _ mem)) back).cons entry
  | @keep entry kept before after same _ ih =>
      have equal : kept = entry := Layout.eq_of_span?_eq spans? precede
        (back kept List.mem_cons_self) (front entry List.mem_cons_self) same
      rw [equal]
      exact (ih (fun other mem => front other (List.mem_cons_of_mem _ mem))
        fun other mem => back other (List.mem_cons_of_mem _ mem)).cons_cons entry

end Revised

/-! ## What goes with a deleted entry -/

/--
How many of the tokens in front of an entry go with it: the padding and one
line break in front of that.  The nearest token comes first.
-/
def leadLength (before : List Token) : Nat :=
  let padding := (before.takeWhile fun token => token.kind == .padding).length
  if (before.drop padding).head?.map Token.kind = some .lineBreak then padding + 1 else padding

/-- A span with the tokens in front of it that go with it, of those from `floor` on. -/
def omission (tokens : List Token) (floor : Nat) (span : Span) : Span :=
  .between (span.start - leadLength ((tokens.take span.start).drop floor).reverse) span.stop

/-- The omissions for spans in their order; what goes with one is not sought in the one before. -/
def omissions (tokens : List Token) : Nat → List Span → List Span
  | _, [] => []
  | floor, span :: spans => omission tokens floor span :: omissions tokens span.stop spans

namespace Document

/-- The spans of the entries that were read and are there no longer. -/
def deleted (document : Document) : List Span :=
  (document.asRead.entries.filterMap Entry.span?).filter fun span =>
    span ∉ document.comment.entries.filterMap Entry.span?

/-- The places that are left out of a revision. -/
def omitted (document : Document) : List Span :=
  omissions document.tokens 0 document.deleted

/-- The source without the omitted places, with the changed entries where they stood. -/
def revision (document : Document) : Text :=
  Layout.revisedFrom document.omitted (document.comment.entries.filterMap document.replacement?) 0
    document.tokens

end Document

namespace Layout

variable {tokens : List Token} {span : Span}

theorem reverse_drop_take_succ {floor place : Nat} (low : floor ≤ place)
    (within : place < tokens.length) :
    ((tokens.take (place + 1)).drop floor).reverse =
      tokens[place] :: ((tokens.take place).drop floor).reverse := by
  rw [List.take_succ_eq_append_getElem within,
    List.drop_append_of_le_length (by rw [List.length_take]; omega), List.reverse_append]
  rfl

theorem reverse_drop_take_self (tokens : List Token) (place : Nat) :
    ((tokens.take place).drop place).reverse = [] := by
  have short : (tokens.take place).length ≤ place := by
    rw [List.length_take]
    exact Nat.min_le_left _ _
  rw [List.drop_eq_nil_of_le short, List.reverse_nil]

theorem backOverPadding_eq {floor place : Nat} (low : floor ≤ place)
    (within : place ≤ tokens.length) :
    backOverPadding tokens floor place = place - (((tokens.take place).drop floor).reverse.takeWhile
      fun token => token.kind == .padding).length := by
  induction place with
  | zero => simp [backOverPadding]
  | succ place ih =>
      rcases Nat.lt_or_eq_of_le low with lt | rfl
      · have inside : place < tokens.length := by omega
        rw [reverse_drop_take_succ (Nat.le_of_lt_succ lt) inside, List.takeWhile_cons,
          backOverPadding, decide_eq_true lt, Bool.true_and, kindAt?_of_lt inside]
        by_cases padding : tokens[place].kind = .padding
        · rw [if_pos (by simp [padding]), if_pos (by simp [padding]),
            ih (Nat.le_of_lt_succ lt) (Nat.le_of_lt inside), List.length_cons]
          omega
        · rw [if_neg (by simpa using padding), if_neg (by simpa using padding)]
          rfl
      · rw [reverse_drop_take_self, backOverPadding, decide_eq_false (Nat.lt_irrefl _),
          Bool.false_and]
        rfl

theorem backOverBreak_eq_if {floor place : Nat} (low : floor ≤ place)
    (within : place ≤ tokens.length) :
    backOverBreak tokens floor place =
      if ((tokens.take place).drop floor).reverse.head?.map Token.kind = some .lineBreak then
        place - 1 else place := by
  cases place with
  | zero => split <;> rfl
  | succ place =>
      rcases Nat.lt_or_eq_of_le low with lt | rfl
      · have inside : place < tokens.length := by omega
        rw [reverse_drop_take_succ (Nat.le_of_lt_succ lt) inside, backOverBreak,
          decide_eq_true lt, Bool.true_and, kindAt?_of_lt inside]
        simp
      · rw [reverse_drop_take_self, backOverBreak, decide_eq_false (Nat.lt_irrefl _),
          Bool.false_and]
        rfl

/-- Going back token by token finds what goes with an entry. -/
theorem widen_eq_omission {floor : Nat} (low : floor ≤ span.start)
    (within : span.start ≤ tokens.length) :
    widen tokens floor span = omission tokens floor span := by
  have padded := backOverPadding_eq low within
  generalize measured : (((tokens.take span.start).drop floor).reverse.takeWhile
    fun token => token.kind == .padding).length = padding at padded
  have short : padding ≤ span.start - floor := by
    rw [← measured]
    refine Nat.le_trans (List.takeWhile_sublist _).length_le ?_
    rw [List.length_reverse, List.length_drop, List.length_take]
    omega
  have reach : floor ≤ span.start - padding := by omega
  have front : ((tokens.take (span.start - padding)).drop floor).reverse =
      (((tokens.take span.start).drop floor).reverse).drop padding := by
    rw [List.drop_reverse, List.drop_take, List.drop_take, List.take_take]
    congr 2
    simp only [List.length_drop, List.length_take]
    omega
  have broken := backOverBreak_eq_if reach (by omega : span.start - padding ≤ tokens.length)
  rw [widen, padded, broken, front, omission, leadLength, measured]
  split <;> congr 1

theorem widenAll_eq_omissions {floor : Nat} {spans : List Span}
    (precede : spans.Pairwise Span.Precedes) (ahead : ∀ span ∈ spans, floor ≤ span.start)
    (within : ∀ span ∈ spans, span.start ≤ tokens.length) :
    widenAll tokens floor spans = omissions tokens floor spans := by
  induction spans generalizing floor with
  | nil => rfl
  | cons span spans ih =>
      obtain ⟨front, later⟩ := List.pairwise_cons.mp precede
      rw [widenAll, omissions,
        widen_eq_omission (ahead span List.mem_cons_self) (within span List.mem_cons_self),
        ih later (fun other mem => (front other mem).2)
          fun other mem => within other (List.mem_cons_of_mem _ mem)]

/-! ## Nothing else is left out -/

variable {document : Document} {opening close : Nat} {spans kept : List Span}

theorem carries_eq_decide (entries : List Entry) (span : Span) :
    (!carries entries span) = decide (span ∉ entries.filterMap Entry.span?) := by
  rw [Bool.eq_iff_iff, Bool.not_eq_true', decide_eq_true_iff, ← carries_iff, Bool.not_eq_true]

theorem leftOut_eq_omitted (tiles : Tiles document.tokens opening close spans)
    (spans? : document.asRead.entries.map Entry.span? = spans.map some) :
    leftOut document spans = document.omitted := by
  have same : (spans.filter fun span => !carries document.comment.entries span) =
      document.deleted := by
    rw [Document.deleted, filterMap_span? spans?]
    exact List.filter_congr fun span _ => carries_eq_decide _ span
  rw [leftOut, Document.omitted, ← same]
  exact widenAll_eq_omissions (tiles.precede.filter _) (fun _ _ => Nat.zero_le _)
    fun span mem => tiles.start_le (List.mem_of_mem_filter mem)

/-- What stands in front of an entry that stays, and behind all before it, is not left out. -/
theorem clear_of_apart (tiles : Tiles document.tokens opening close spans) {span : Span}
    (mem : span ∈ spans) (carried : span ∈ document.comment.entries.filterMap Entry.span?)
    {place : Nat} (front : place < span.stop)
    (apart : ∀ other ∈ spans, other.stop ≤ place ∨ span.start ≤ other.start) :
    ∀ other ∈ leftOut document spans, other.contains place = false := by
  intro other left
  obtain ⟨third, listed, floor, _, rfl⟩ := mem_widenAll (tiles.precede.filter _) left
  obtain ⟨among, absent⟩ := List.mem_filter.mp listed
  have distinct : third ≠ span := by
    rintro rfl
    rw [carries_iff.mpr carried] at absent
    cases absent
  exact tiles.not_contains_widen mem among distinct front (apart third among) floor

/-- No place of an entry that stays is left out. -/
theorem clear_of_leftOut (tiles : Tiles document.tokens opening close spans) {span : Span}
    (mem : span ∈ spans) (carried : span ∈ document.comment.entries.filterMap Entry.span?)
    {place : Nat} (inside : span.contains place = true) :
    ∀ other ∈ leftOut document spans, other.contains place = false := by
  obtain ⟨low, high⟩ := Span.contains_iff.mp inside
  refine clear_of_apart tiles mem carried high fun other among => ?_
  rcases Classical.em (other = span) with rfl | distinct
  · exact Or.inr (Nat.le_refl _)
  · rcases Span.precedes_or_precedes tiles.precede among mem distinct with precedes | precedes
    · exact Or.inl (Nat.le_trans precedes.2 low)
    · exact Or.inr (Nat.le_of_lt precedes.1)

/-- What was left out before a span lies in front of the line break there. -/
theorem le_of_isFloor {floor feed : Nat} (isFloor : IsFloor (spans.filter fun span =>
      !carries document.comment.entries span) 0 span floor)
    (apart : ∀ other ∈ spans, other.stop ≤ feed ∨ span.start ≤ other.start) : floor ≤ feed := by
  rcases isFloor with rfl | ⟨before, listed, precedes, rfl⟩
  · exact Nat.zero_le _
  · have start := precedes.1
    exact (apart before (List.mem_of_mem_filter listed)).resolve_right (by omega)

/-- An entry that is gone from an empty line has taken the line break in front of it. -/
theorem exists_leftOut_of_blank (tiles : Tiles document.tokens opening close spans)
    {next : Span} (mem : span ∈ spans) (among : next ∈ spans) (start : next.start = span.stop + 1)
    (stands : kindAt? document.tokens span.stop = some .lineBreak)
    (absent : next ∉ document.comment.entries.filterMap Entry.span?) :
    ∃ other ∈ leftOut document spans, other.contains span.stop = true := by
  have listed : next ∈ spans.filter fun span => !carries document.comment.entries span :=
    List.mem_filter.mpr ⟨among, by rw [carries_eq_decide, decide_eq_true absent]⟩
  obtain ⟨floor, origin, widened⟩ :=
    exists_widen_of_mem document.tokens 0 (tiles.precede.filter _) listed
  obtain ⟨feed, reach, _, _, apart⟩ := tiles.exists_break among mem (by
    have proper := span.start_le_stop
    omega)
  have low := le_of_isFloor origin apart
  have padded : Padded document.tokens (span.stop + 1) next.start := start ▸ .refl _ _
  refine ⟨_, widened, Span.contains_iff.mpr ?_⟩
  have proper := next.start_le_stop
  rw [widen_start_of_lineBreak (by omega) padded stands, widen_stop floor (tiles.start_le among)]
  omega

/-- Behind the last entry that stays, every entry is gone. -/
theorem not_mem_of_getLast? (precede : kept.Pairwise Span.Precedes) {next : Span}
    (last : kept.getLast? = some span) (behind : span.start < next.start) : next ∉ kept := by
  intro stays
  obtain ⟨before, rfl⟩ := List.getLast?_eq_some_iff.mp last
  rcases List.mem_append.mp stays with earlier | same
  · have precedes := (List.pairwise_append.mp precede).2.2 next earlier span
      (List.mem_singleton.mpr rfl)
    exact Nat.lt_asymm behind precedes.1
  · rw [List.mem_singleton.mp same] at behind
    exact Nat.lt_irrefl _ behind

/-- The line break that the rest of the source may lose is left out anyway. -/
theorem exists_leftOut_of_doubled (tiles : Tiles document.tokens opening close spans)
    (kept? : document.comment.entries.map Entry.span? = kept.map some)
    (ordered : kept.Sublist spans) {place : Nat}
    (reached : place = (kept.getLast?.map Span.stop).getD 0)
    (first : kindAt? document.tokens place = some .lineBreak)
    (second : kindAt? document.tokens (place + 1) = some .lineBreak) :
    ∃ other ∈ leftOut document spans, other.contains place = true := by
  cases last : kept.getLast? with
  | none =>
      rw [last] at reached
      rw [show place = 0 from reached] at first
      -- A comment begins with its opening marker or with padding.
      rcases Nat.eq_zero_or_pos opening with zero | pos
      · rw [← zero, tiles.opens] at first
        cases first
      · rw [tiles.front.padding 0 (Nat.le_refl _) pos] at first
        cases first
  | some span =>
      rw [last] at reached
      rw [show place = span.stop from reached] at first second ⊢
      have mem := ordered.subset (List.mem_of_getLast? last)
      obtain ⟨next, among, start⟩ := tiles.blank span mem first second
      have proper := span.start_le_stop
      apply exists_leftOut_of_blank tiles mem among start first
      rw [filterMap_span? kept?]
      exact not_mem_of_getLast? (tiles.precede.sublist ordered) last (by omega)

theorem gap_tailStart (tiles : Tiles document.tokens opening close spans)
    (kept? : document.comment.entries.map Entry.span? = kept.map some)
    (ordered : kept.Sublist spans) {progress : Progress}
    (reached : progress.place = (kept.getLast?.map Span.stop).getD 0) :
    tail document (leftOut document spans) progress =
      gap document.tokens (leftOut document spans) progress.place document.tokens.length := by
  unfold tail tailStart
  split
  next doubled =>
    simp only [Bool.and_eq_true, beq_iff_eq] at doubled
    obtain ⟨⟨_, first⟩, second⟩ := doubled
    obtain ⟨other, among, holds⟩ :=
      exists_leftOut_of_doubled tiles kept? ordered reached first second
    have within := lt_length_of_kindAt? first
    have nothing : gap document.tokens (leftOut document spans) progress.place
        (progress.place + 1) = [] := by
      rw [gap_eq, List.flatMap_eq_nil_iff]
      intro place listed
      obtain ⟨inside, clear⟩ := mem_placesOutside.mp listed
      have here : place = progress.place := by omega
      rw [here] at clear
      rw [clear other among] at holds
      cases holds
    rw [← gap_append document.tokens _ (Nat.le_succ progress.place) within, nothing,
      List.nil_append]
  next => rfl

/-- A revision differs from what was read when an entry is gone or was changed. -/
theorem edited_of_revised (precede : spans.Pairwise Span.Precedes)
    (spans? : document.asRead.entries.map Entry.span? = spans.map some)
    (kept? : document.comment.entries.map Entry.span? = kept.map some)
    (revised : Revised document.asRead.entries document.comment.entries)
    (differs : document.comment.entries ≠ document.asRead.entries) :
    ((start (leftOut document spans)).edited ||
      decide (∃ entry ∈ document.comment.entries, entry ∉ document.asRead.entries)) = true := by
  rw [Bool.or_eq_true, decide_eq_true_eq]
  by_cases changed : ∃ entry ∈ document.comment.entries, entry ∉ document.asRead.entries
  · exact Or.inr changed
  · apply Or.inl
    rw [start, Bool.not_eq_true', List.isEmpty_eq_false_iff]
    intro none
    apply differs
    have back : ∀ entry ∈ document.comment.entries, entry ∈ document.asRead.entries := by
      intro entry mem
      by_contra absent
      exact changed ⟨entry, mem, absent⟩
    have part := Revised.sublist spans? precede revised (fun _ mem => mem) back
    apply part.eq_of_length_le
    have all : spans ⊆ kept := by
      intro span mem
      rw [← filterMap_span? kept?, ← carries_iff]
      by_contra gone
      have listed : span ∈ spans.filter fun span => !carries document.comment.entries span :=
        List.mem_filter.mpr ⟨mem, by simpa using gone⟩
      obtain ⟨floor, _, widened⟩ :=
        exists_widen_of_mem document.tokens 0 (precede.filter _) listed
      change widenAll document.tokens 0 _ = [] at none
      rw [none] at widened
      cases widened
    have count := List.Nodup.length_le_of_subset (Span.nodup_of_precede precede) all
    have before := congrArg List.length spans?
    have after := congrArg List.length kept?
    simp only [List.length_map] at before after
    omega

end Layout

/-! ## Whole documents -/

/-- The text of a document whose entries were only deleted and changed where they stand. -/
theorem Layout.laidOut_of_revised (document : Document) {spans : List Span} {opening close : Nat}
    (tiles : Tiles document.tokens opening close spans)
    (spans? : document.asRead.entries.map Entry.span? = spans.map some)
    (revised : Revised document.asRead.entries document.comment.entries)
    (differs : document.comment.entries ≠ document.asRead.entries) :
    document.laidOut (leftOut document spans) = (document.revision, true) := by
  have part := revised.span?_sublist
  rw [spans?] at part
  obtain ⟨kept, ordered, kept?⟩ := List.sublist_map_iff.mp part
  have carried : ∀ span ∈ kept, span ∈ document.comment.entries.filterMap Entry.span? := by
    rw [filterMap_span? kept?]
    exact fun _ mem => mem
  have inOrder : InOrder document (leftOut document spans) (start (leftOut document spans)).place
      document.comment.entries kept :=
    ⟨kept?, tiles.precede.sublist ordered, fun _ _ => Nat.zero_le _,
      fun span mem => Nat.le_trans (tiles.inside span (ordered.subset mem)).2 tiles.close_le,
      fun span mem _ inside =>
      clear_of_leftOut tiles (ordered.subset mem) (carried span mem) inside⟩
  have text := text_of_placeAll spans? tiles.precede inOrder rfl (Nat.zero_le _)
  have reached := place_of_placeAll spans? tiles.precede inOrder rfl
  have edited := edited_of_placeAll spans? tiles.precede inOrder rfl
  rw [edited_of_revised tiles.precede spans? kept? revised differs] at edited
  have rest := gap_tailStart tiles kept? ordered reached
  refine Prod.ext ?_ edited
  rw [Document.revision, ← leftOut_eq_omitted tiles spans?]
  refine Eq.trans ?_ text
  rw [← rest]
  rfl

/-- A document whose entries were only deleted and changed where they stand is
revised, cleaned up and written. -/
theorem Document.render_revision {document : Document} {spans : List Span} {opening close : Nat}
    (tiles : Tiles document.tokens opening close spans)
    (spans? : document.asRead.entries.map Entry.span? = spans.map some)
    (revised : Revised document.asRead.entries document.comment.entries)
    (differs : document.comment.entries ≠ document.asRead.entries) :
    document.render = .ok (if !document.asRead.isVoid && document.comment.isVoid then []
      else Cleanup.finish true document.comment.onOneLine document.revision) := by
  have tokens : document.tokens ≠ [] :=
    List.ne_nil_of_length_pos (Nat.zero_lt_of_lt (lt_length_of_kindAt? tiles.opens))
  by_cases void : (!document.asRead.isVoid && document.comment.isVoid) = true
  · rw [if_pos void]
    exact Document.render_of_void tokens void
  · rw [if_neg void, Document.render_of_present tokens (Bool.eq_false_iff.mpr void)
      (Layout.removedSpans_eq spans? tiles.precede),
      Layout.laidOut_of_revised document tiles spans? revised differs]

/--
Deleting entries and changing others where they stand: nothing is left of a
comment that holds nothing more; any other is its source, revised and cleaned up.
No place that is left out is one of an entry that stays.
-/
theorem render_of_revised {dialect : Dialect} {text : Text} {document : Document}
    (verbatim : dialect.OnlyVerbatim) (run : dialect.read text = .ok document) {comment : Comment}
    (revised : Revised document.asRead.entries comment.entries)
    (differs : comment.entries ≠ document.asRead.entries) :
    let edited := document.withComment comment
    edited.render = .ok (if !document.asRead.isVoid && comment.isVoid then []
      else Cleanup.finish true comment.onOneLine edited.revision) ∧
    ∀ omitted ∈ edited.omitted, ∀ entry ∈ comment.entries, ∀ span, entry.span? = some span →
      ∀ place, span.contains place = true → omitted.contains place = false := by
  intro edited
  obtain ⟨opening, close, spans, spans?, tiles⟩ := Dialect.tiles_of_read verbatim run
  have leaves : Layout.leftOut edited spans = edited.omitted :=
    Layout.leftOut_eq_omitted tiles spans?
  constructor
  · exact @Document.render_revision edited _ _ _ tiles spans? revised differs
  · intro omitted among entry mem span stands place inside
    rw [← leaves] at among
    have part := revised.span?_sublist.subset
    have carried : span ∈ comment.entries.filterMap Entry.span? :=
      List.mem_filterMap.mpr ⟨entry, mem, stands⟩
    have known : some span ∈ document.asRead.entries.map Entry.span? :=
      part (List.mem_map.mpr ⟨entry, mem, stands⟩)
    rw [spans?, List.mem_map] at known
    obtain ⟨same, listed, equal⟩ := known
    cases equal
    exact @Layout.clear_of_leftOut edited opening close spans tiles span listed carried place inside
      omitted among

/-- A tag deleted behind a line that was changed. -/
theorem render_of_revised_tag :
    let dialect : Dialect := ⟨[.verbatim ["@b".toList]], .plain⟩
    let comment := Comment.ofEntries [.prose ⟨['z'], some ⟨3, 1⟩⟩, .prose ⟨['c'], some ⟨9, 1⟩⟩]
    ∃ document, dialect.read "/**\n * a\n * @b\n * c\n */".toList = .ok document ∧
      (document.withComment comment).render = .ok "/**\n * z\n * c\n */".toList := by
  intro dialect comment
  have run : dialect.read "/**\n * a\n * @b\n * c\n */".toList =
      .ok (.ofComment (.ofEntries [.prose ⟨['a'], some ⟨3, 1⟩⟩,
        .tag ⟨"@b".toList, .plain [], some ⟨6, 1⟩, none⟩, .prose ⟨['c'], some ⟨9, 1⟩⟩])
        (scan "/**\n * a\n * @b\n * c\n */".toList)) := rfl
  have verbatim : dialect.OnlyVerbatim := fun rule mem =>
    ⟨["@b".toList], List.mem_singleton.mp mem⟩
  have revised : Revised [.prose ⟨['a'], some ⟨3, 1⟩⟩,
      .tag ⟨"@b".toList, .plain [], some ⟨6, 1⟩, none⟩, .prose ⟨['c'], some ⟨9, 1⟩⟩]
      comment.entries := .keep rfl (.delete _ (.keep rfl .nil))
  exact ⟨_, run, (render_of_revised verbatim run revised (by decide)).1.trans
    (congrArg Except.ok (by decide +kernel))⟩

end DocComment
