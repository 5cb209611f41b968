import DocComment.Comment.Edit
import DocComment.Proofs.Rendering.Revision
import DocComment.Proofs.RoundTrip

/-!
# One tag in the place of another

When one tag is changed where it stands and nothing else is, the document is
its source with the new tag in the place of the old one, cleaned up
(`render_withTag`).
-/

namespace DocComment

open Token

namespace Revised

theorem refl (entries : List Entry) : Revised entries entries := by
  induction entries with
  | nil => exact .nil
  | cons entry entries ih => exact .keep rfl ih

theorem replaced {old new : Entry} (same : new.span? = old.span?) (before later : List Entry) :
    Revised (before ++ old :: later) (before ++ new :: later) := by
  induction before with
  | nil => exact .keep same (refl later)
  | cons entry before ih => exact .keep rfl ih

end Revised

namespace Document

/-- The document with a tag in the place of the entry at an index. -/
def withTag (document : Document) (place : Nat) (tag : Tag) : Document :=
  document.withComment (document.comment.replace place (.tag tag))

section Replaced

variable {document : Document} {before later : List Entry} {old new : Entry} {span : Span}
  (entries : document.comment.entries = before ++ old :: later) (old? : old.span? = some span)
  (new? : new.span? = some span)
include entries old? new?

/-- Every span that was read is still there when an entry was changed where it stands. -/
theorem deleted_of_replaced (unchanged : document.comment = document.asRead) {comment : Comment}
    (changed : comment.entries = before ++ new :: later) :
    (document.withComment comment).deleted = [] := by
  have same : comment.entries.filterMap Entry.span? =
      document.asRead.entries.filterMap Entry.span? := by
    rw [changed, ← unchanged, entries, List.filterMap_append, List.filterMap_append,
      List.filterMap_cons_some new?, List.filterMap_cons_some old?]
  rw [deleted, List.filter_eq_nil_iff]
  intro other mem gone
  refine of_decide_eq_true gone ?_
  exact same ▸ mem

/-- The source with a new text in the place of an entry. -/
theorem revision_of_replaced {spans : List Span}
    (spans? : document.asRead.entries.map Entry.span? = spans.map some)
    (precede : spans.Pairwise Span.Precedes)
    (within : ∀ span ∈ spans, span.stop ≤ document.tokens.length)
    (unchanged : document.comment = document.asRead) (differs : new ≠ old) {comment : Comment}
    (changed : comment.entries = before ++ new :: later) :
    (document.withComment comment).revision =
      textOf (document.tokens.take span.start) ++ (decorate (new.renderChanged document.source) ++
        textOf (document.tokens.drop span.stop)) := by
  have known : ∀ entry ∈ before ++ old :: later,
      entry ∈ document.asRead.entries := fun entry mem => by
    rw [← unchanged, entries]
    exact mem
  have fresh : new ∉ document.asRead.entries := fun mem =>
    differs (Layout.eq_of_span?_eq spans? precede mem (known old (by simp)) (new?.trans old?.symm))
  have stands : span ∈ spans := by
    have held := List.mem_map_of_mem (f := Entry.span?) (known old (by simp))
    rw [spans?, old?] at held
    obtain ⟨_, mem, same⟩ := List.mem_map.mp held
    cases same
    exact mem
  -- Of the entries only the changed one is to be replaced.
  have untouched : ∀ kept : List Entry, (∀ entry ∈ kept, entry ∈ document.asRead.entries) →
      kept.filterMap (document.withComment comment).replacement? = [] := fun kept mem =>
    List.filterMap_eq_nil_iff.mpr fun entry held => if_pos (mem entry held)
  have replaced : comment.entries.filterMap (document.withComment comment).replacement? =
      [⟨span, decorate (new.renderChanged document.source)⟩] := by
    have present : (document.withComment comment).replacement? new =
        some ⟨span, decorate (new.renderChanged document.source)⟩ := by
      refine (if_neg fresh).trans ?_
      rw [new?]
      rfl
    rw [changed, List.filterMap_append,
      untouched before fun entry mem => known entry (by simp [mem]),
      List.filterMap_cons_some present, untouched later fun entry mem =>
      known entry (by simp [mem])]
    rfl
  have le : span.start ≤ span.stop := Nat.le_add_right _ _
  have inside := within span stands
  have front : Layout.revisedFrom []
      [⟨span, decorate (new.renderChanged document.source)⟩] 0 document.tokens =
      Layout.gap document.tokens [] 0 span.start ++
        Layout.revisedFrom [] [⟨span, decorate (new.renderChanged document.source)⟩] span.start
          (document.tokens.drop span.start) :=
    Layout.revisedFrom_gap (Nat.zero_le _) (Nat.le_trans le inside) (by simp)
  have behind : Layout.revisedFrom []
      [⟨span, decorate (new.renderChanged document.source)⟩] span.start
      (document.tokens.drop span.start) = decorate (new.renderChanged document.source) ++
        Layout.revisedFrom [] [] span.stop (document.tokens.drop span.stop) :=
    Layout.revisedFrom_replacement
      ⟨span, decorate (new.renderChanged document.source)⟩ inside (by simp)
  rw [revision, omitted, deleted_of_replaced entries old? new? unchanged changed]
  change Layout.revisedFrom [] (comment.entries.filterMap _) 0 document.tokens = _
  rw [replaced, front, behind, Layout.revisedFrom_nil, Layout.gap_nil, textBetween, List.drop_zero]

end Replaced

variable {dialect : Dialect} {text : Text} {document : Document} {place : Nat} {old new : Tag}
  {span : Span}

theorem entries_eq (stands : document.comment.entries[place]? = some (.tag old)) :
    document.comment.entries =
      document.comment.entries.take place ++ .tag old :: document.comment.entries.drop
        (place + 1) := by
  obtain ⟨within, same⟩ := List.getElem?_eq_some_iff.mp stands
  rw [← same, List.getElem_cons_drop, List.take_append_drop]

theorem entries_withTag (stands : document.comment.entries[place]? = some (.tag old)) (new : Tag) :
    (document.withTag place new).comment.entries =
      document.comment.entries.take place ++ .tag new :: document.comment.entries.drop
        (place + 1) :=
  List.set_eq_take_append_cons_drop.trans (if_pos (List.getElem?_eq_some_iff.mp stands).1)

/-- A tag that takes its own place changes nothing. -/
theorem withTag_self (stands : document.comment.entries[place]? = some (.tag old)) :
    document.withTag place old = document := by
  have entries : document.comment.entries.set place (.tag old) = document.comment.entries := by
    refine List.ext_getElem? fun index => ?_
    rw [List.getElem?_set]
    split
    · next here =>
        rw [← here, stands, if_pos (List.getElem?_eq_some_iff.mp stands).1]
    · rfl
  rw [withTag, Comment.replace, entries]
  rfl

/-- The text of a document in which one tag was changed where it stands. -/
theorem render_withTag (verbatim : dialect.OnlyVerbatim) (run : dialect.read text = .ok document)
    (stands : document.comment.entries[place]? = some (.tag old)) (old? : old.span = some span)
    (new? : new.span = some span) (differs : new ≠ old) (content : new.payload.kind ≠ .cleared) :
    (document.withTag place new).revision =
        textOf ((scan text).take span.start) ++ (decorate (new.renderChanged text) ++
          textOf ((scan text).drop span.stop)) ∧
      (document.withTag place new).render =
        .ok (Cleanup.finish true false (document.withTag place new).revision) := by
  obtain ⟨opening, close, spans, spans?, tiles⟩ := Dialect.tiles_of_read verbatim run
  have unchanged := Dialect.comment_of_read run
  have tokens := Dialect.tokens_of_read run
  have source : document.source = text := by rw [source, tokens, textOf_scan]
  have entries := entries_eq stands
  have changed := entries_withTag stands new
  have differ : Entry.tag new ≠ .tag old := fun same => differs (Entry.tag.inj same)
  have old? : (Entry.tag old).span? = some span := old?
  have new? : (Entry.tag new).span? = some span := new?
  constructor
  · rw [← tokens, ← source]
    exact revision_of_replaced entries old? new? spans? tiles.precede
      (fun span mem => Nat.le_trans (tiles.inside span mem).2 tiles.close_le) unchanged
      differ changed
  · have proper : (document.withTag place new).tokens ≠ [] :=
      List.ne_nil_of_length_pos (Nat.zero_lt_of_lt (lt_length_of_kindAt? tiles.opens))
    have present :
        (!(document.withTag place new).asRead.isVoid &&
          (document.withTag place new).comment.isVoid) =
        false := by
      have held : Entry.tag new ∈ (document.withTag place new).comment.entries := by
        rw [changed]
        simp
      have full : (document.withTag place new).comment.isVoid = false := by
        rw [Comment.isVoid, List.all_eq_false]
        exact ⟨_, held, fun void => content (of_decide_eq_true void)⟩
      rw [full, Bool.and_false]
    have revised : Revised (document.withTag place new).asRead.entries
        (document.withTag place new).comment.entries := by
      have kept := Revised.replaced (new?.trans old?.symm) (document.comment.entries.take place)
        (document.comment.entries.drop (place + 1))
      rw [← entries, ← changed, unchanged] at kept
      exact kept
    have edited : (document.withTag place new).comment.entries ≠
        (document.withTag place new).asRead.entries := by
      change _ ≠ document.asRead.entries
      rw [← unchanged, changed]
      intro same
      exact differ (List.cons.inj (List.append_cancel_left (same.trans entries))).1
    have left : Layout.removedSpans (document.withTag place new) =
        .ok (Layout.leftOut (document.withTag place new) spans) :=
      Layout.removedSpans_eq spans? tiles.precede
    rw [render_of_present proper present left,
      Layout.laidOut_of_revised (document.withTag place new) tiles spans? revised edited]
    change Except.ok (Cleanup.finish true document.comment.onOneLine _) = _
    rw [unchanged, Dialect.onOneLine_of_read run]

end Document

end DocComment
