import DocComment.Proofs.Reading.Tag

/-!
# Comments without source are read back

A comment that was built from tags alone is printed with one decorated line for
every line of its tags.  Reading that text gives the tags again, in their order
and with equal payloads, when each of them is written the way it would be read
and no callable is padded in them (`read_of_fresh`).
-/

namespace DocComment

open Token

/-! ## The lines of a comment -/

/-- The lines of tags, each line behind a star, and the closing marker behind them. -/
def linesOf (tags : List Tag) : Text :=
  starred (bodyOf (tags.map Tag.render)) ++ closingLine

theorem linesOf_cons {tag : Tag} (canonical : tag.IsCanonical) (tags : List Tag) :
    linesOf (tag :: tags) = '\n' :: ' ' :: '*' :: ' ' :: (starred tag.render ++ linesOf tags) := by
  obtain ⟨more, written⟩ := canonical.exists_render
  have lead : starLead (tag.render ++ bodyOf (tags.map Tag.render)) = [' '] := by rw [written]; rfl
  rw [linesOf, List.map_cons, bodyOf_cons, List.cons_append, starred_feed, lead,
    starred_append_of_head fun c head => head?_bodyOf head]
  simp only [linesOf, List.cons_append, List.nil_append, List.append_assoc]

theorem endsEntry_linesOf {tags : List Tag} (canonical : ∀ tag ∈ tags, tag.IsCanonical) :
    EndsEntry (linesOf tags) := by
  induction tags with
  | nil => exact ⟨rfl, ['\n', ' '], ['*', '/'], rfl, Or.inr rfl⟩
  | cons tag tags ih =>
      obtain ⟨here, later⟩ := List.forall_mem_cons.mp canonical
      have first := here.firstKind?_render (ih later).head
      rw [linesOf_cons here]
      refine ⟨rfl, _, _, scan_starred (by simp), Or.inl ?_⟩
      rw [List.dropWhile_cons_of_pos rfl, dropWhile_of_firstKind? (by rw [first]; decide), first]

/-! ## Reading the comment -/

/-- An entry that was read from a tag without source. -/
def ReadFrom (tag : Tag) (entry : Entry) : Prop :=
  ∃ span, entry = .tag ⟨tag.name, tag.payload, some span, none⟩

theorem Cursor.isAtClose_of_rest {cursor : Cursor} {token : Token} {tokens : List Token}
    (stands : cursor.rest = token :: tokens) : cursor.isAtClose = (token.kind == .closing) := by
  rw [Cursor.isAtClose, Cursor.isAtEnd, Cursor.isAt_of_rest stands, stands]
  rfl

section Loop

variable {tag : Tag} {tags : List Tag} (canonical : ∀ tag ∈ tags, tag.IsCanonical) {cursor : Cursor}
include canonical

/-- In front of the lines of tags a line break is taken. -/
theorem run_break (stands : cursor.rest = scan (linesOf tags)) :
    cursor.isAtClose = false ∧ Read.accept .lineBreak cursor = .ok true cursor.advance := by
  obtain ⟨broken, more, scanned, _⟩ := (endsEntry_linesOf canonical).scanned
  rw [scanned] at stands
  exact ⟨Cursor.isAtClose_of_rest stands, Read.run_accept_of_rest stands rfl⟩

/-- Behind the line break the first tag is taken. -/
theorem run_line (here : tag.IsCanonical) (stands : cursor.rest = scan (linesOf (tag :: tags))) :
    cursor.advance.isAtClose = false ∧ ∃ span after,
      Dialect.plain.entry cursor.advance =
        .ok (.tag ⟨tag.name, tag.payload, some span, none⟩) after ∧
        after.rest = scan (linesOf tags) ∧ after.rest.length < cursor.rest.length := by
  have ends := endsEntry_linesOf canonical
  have first := here.firstKind?_render ends.head
  rw [linesOf_cons here, scan_starred (by simp)] at stands
  have reached := Cursor.reaches_advance stands (by simp)
  have behind := reached.rest_eq ((List.dropWhile_cons_of_pos rfl).trans
    (dropWhile_of_firstKind? (by rw [first]; decide)))
  obtain ⟨span, after, run, final, short⟩ := here.run_entry ends behind
  refine ⟨?_, span, after, run, final, Nat.lt_of_le_of_lt short reached.shorter⟩
  rw [firstKind?, ← behind] at first
  obtain ⟨token, head, kind⟩ := Option.map_eq_some_iff.mp first
  obtain ⟨others, split⟩ := List.head?_eq_some_iff.mp head
  rw [Cursor.isAtClose_of_rest split, kind]
  rfl

theorem length_le_scan_linesOf : tags.length ≤ (scan (linesOf tags)).length := by
  induction tags with
  | nil => exact Nat.zero_le _
  | cons tag tags ih =>
      obtain ⟨here, later⟩ := List.forall_mem_cons.mp canonical
      obtain ⟨_, span, after, _, behind, short⟩ := @run_line tag tags later ⟨[], _⟩ here rfl
      rw [behind] at short
      exact Nat.lt_of_le_of_lt (ih later) short

/-- The tags behind the first one are read back one after the other. -/
theorem run_furtherEntries {bound : Nat} (enough : tags.length < bound)
    (stands : cursor.rest = scan (linesOf tags)) :
    ∃ found after, Dialect.plain.furtherEntries bound cursor = .ok found after ∧
      List.Forall₂ ReadFrom tags found := by
  induction tags generalizing cursor bound with
  | nil =>
      obtain ⟨opened, broken⟩ := run_break canonical stands
      have closes : cursor.advance.isAtClose = true := by
        have reached :=
          @Cursor.reaches_advance cursor ⟨.lineBreak, ['\n', ' ']⟩ ['*', '/'] stands (by simp)
        exact Cursor.isAtClose_of_rest reached.rest
      obtain ⟨bound, rfl⟩ := Nat.exists_eq_add_of_lt enough
      refine ⟨[], cursor.advance, ?_, .nil⟩
      rw [Dialect.furtherEntries, Read.run_get_bind, opened, if_neg Bool.false_ne_true,
        Read.run_bind_of_ok broken, if_pos rfl, Read.run_get_bind, closes, if_pos rfl]
      rfl
  | cons tag tags ih =>
      obtain ⟨here, later⟩ := List.forall_mem_cons.mp canonical
      obtain ⟨opened, broken⟩ := run_break canonical stands
      obtain ⟨goesOn, span, middle, run, behind, _⟩ := run_line later here stands
      obtain ⟨bound, rfl⟩ := Nat.exists_eq_add_of_lt enough
      obtain ⟨found, after, ran, read⟩ :=
        @ih later middle (tags.length + 1 + bound) (by omega) behind
      refine ⟨_ :: found, after, ?_, .cons ⟨span, rfl⟩ read⟩
      rw [Dialect.furtherEntries, Read.run_get_bind, opened, if_neg Bool.false_ne_true,
        Read.run_bind_of_ok broken, if_pos rfl, Read.run_get_bind, goesOn,
        if_neg Bool.false_ne_true,
        Read.run_bind_of_ok run]
      exact Read.run_bind_of_ok ran

/-- All tags are read back from the lines behind the opening marker. -/
theorem run_entries (here : tag.IsCanonical) (stands : cursor.rest = scan (linesOf (tag :: tags))) :
    ∃ found after, Dialect.plain.entries cursor.advance = .ok found after ∧
      List.Forall₂ ReadFrom (tag :: tags) found := by
  obtain ⟨goesOn, span, middle, run, behind, _⟩ := run_line canonical here stands
  have enough : tags.length < middle.rest.length + 1 := by
    rw [behind]
    exact Nat.lt_succ_of_le (length_le_scan_linesOf canonical)
  obtain ⟨found, after, ran, read⟩ := run_furtherEntries canonical enough behind
  refine ⟨_ :: found, after, ?_, .cons ⟨span, rfl⟩ read⟩
  rw [Dialect.entries, Read.run_get_bind, goesOn, if_neg Bool.false_ne_true,
    Read.run_bind_of_ok run, Read.run_get_bind]
  exact Read.run_bind_of_ok ran

end Loop

theorem run_comment {tags : List Tag} (proper : tags ≠ [])
    (canonical : ∀ tag ∈ tags, tag.IsCanonical)
    {cursor : Cursor} (stands : cursor.rest = ⟨.opening, Cleanup.opener⟩ :: scan (linesOf tags)) :
    ∃ found after, Dialect.plain.comment cursor = .ok (Comment.ofEntries found) after ∧
      List.Forall₂ ReadFrom tags found := by
  obtain ⟨tag, others, rfl⟩ := List.exists_cons_of_ne_nil proper
  obtain ⟨here, later⟩ := List.forall_mem_cons.mp canonical
  have firm : (linesOf (tag :: others)).dropWhile isPadding = linesOf (tag :: others) := by
    rw [linesOf_cons here]
    rfl
  have lines := (Cursor.reaches_advance stands (by simp)).rest_eq firm
  obtain ⟨_, broken⟩ := run_break canonical lines
  obtain ⟨found, after, run, read⟩ := run_entries later here lines
  refine ⟨found, after.accept .closing, ?_, read⟩
  rw [Dialect.comment, Read.run_bind_of_ok (Read.run_expect stands rfl), Read.run_bind_of_ok broken,
    Read.run_bind_of_ok run]
  exact Read.run_bind_of_ok (Read.run_accept _ _)

/-- The lines of tags are read as a comment behind an opening marker. -/
theorem read_linesOf {tags : List Tag} (proper : tags ≠ [])
    (canonical : ∀ tag ∈ tags, tag.IsCanonical) :
    ∃ printed, Dialect.plain.read (Cleanup.opener ++ linesOf tags) = .ok printed ∧
      List.Forall₂ ReadFrom tags printed.comment.entries := by
  have start : (Cursor.ofTokens (scan (Cleanup.opener ++ linesOf tags))).rest =
      ⟨.opening, Cleanup.opener⟩ :: scan (linesOf tags) := by
    rw [scan_opener]
    rfl
  obtain ⟨found, after, run, read⟩ := run_comment proper canonical start
  refine ⟨Document.ofComment (Comment.ofEntries found) (scan (Cleanup.opener ++ linesOf tags)), ?_, read⟩
  unfold Dialect.read Read.valueAt
  dsimp only
  rw [run]
  rfl

/-- The text of a comment that was built from canonical tags. -/
theorem renderFresh_linesOf {tags : List Tag} (proper : tags ≠ [])
    (canonical : ∀ tag ∈ tags, tag.IsCanonical)
    (clean : ∀ tag ∈ tags, ¬ Cleanup.HasPaddedCallable tag.render) :
    (Comment.ofEntries (tags.map Entry.tag)).renderFresh = Cleanup.opener ++ linesOf tags := by
  have written : ∀ tag ∈ tags, (Entry.tag tag).renderFresh = tag.render := fun tag mem =>
    (canonical tag mem).renderFresh_eq
  have texts : (tags.map Entry.tag).map Entry.renderFresh = tags.map Tag.render := by
    rw [List.map_map]
    exact List.map_congr_left written
  rw [renderFresh_eq (by simpa [Comment.ofEntries] using proper) rfl, linesOf,
    Comment.ofEntries, texts]
  · refine List.forall_mem_map.mpr fun tag mem => ?_
    rw [written tag mem]
    exact (canonical tag mem).tidy_render
  · refine List.forall_mem_map.mpr fun tag mem => ?_
    rw [written tag mem]
    exact clean tag mem

/--
Reading the text of a comment that was built from canonical tags gives these
tags in their order, with equal names and payloads, when no callable is padded
in them.
-/
theorem read_of_fresh {tags : List Tag} (proper : tags ≠ [])
    (canonical : ∀ tag ∈ tags, tag.IsCanonical)
    (clean : ∀ tag ∈ tags, ¬ Cleanup.HasPaddedCallable tag.render) :
    ∃ output printed,
      Document.render ⟨Comment.ofEntries (tags.map Entry.tag), Comment.empty, []⟩ = .ok output ∧
        Dialect.plain.read output = .ok printed ∧
        List.Forall₂ ReadFrom tags printed.comment.entries := by
  obtain ⟨printed, run, read⟩ := read_linesOf proper canonical
  refine ⟨_, printed, rfl, ?_, read⟩
  rw [renderFresh_linesOf proper canonical clean, run]

/-- A typed tag and a plain one, whose text goes on behind a line feed. -/
theorem read_of_fresh_param_link :
    let tags := [Tag.fresh "@param".toList (.typed (.param (some (.named "int".toList)) false true "$x".toList)
        "the numbers".toList), Tag.fresh "@link".toList (.plain "(a\nb)".toList)]
    ∃ output printed,
      Document.render ⟨Comment.ofEntries (tags.map Entry.tag), Comment.empty, []⟩ = .ok output ∧
        Dialect.plain.read output = .ok printed ∧
        List.Forall₂ ReadFrom tags printed.comment.entries := by
  intro tags
  have unclosed {text : Text} (absent : '*' ∉ text) : text.Unclosed :=
    Text.unclosed_of_ne_star fun c mem same => absent (same ▸ mem)
  have clean {text : Text} (absent : 'c' ∉ text) : ¬ Cleanup.HasPaddedCallable text :=
    Cleanup.not_hasPaddedCallable_of_not_mem absent
  refine read_of_fresh (List.cons_ne_nil _ _) (List.forall_mem_cons.mpr ⟨?_,
    List.forall_mem_singleton.mpr ?_⟩) (List.forall_mem_cons.mpr ⟨clean (by decide),
    List.forall_mem_singleton.mpr (clean (by decide))⟩)
  · refine .typed (by decide) ⟨?_, ?_, ?_, ?_⟩ ⟨?_, unclosed (by decide), by decide⟩
    · rintro type ⟨⟩
      decide
    · rintro _ type ⟨⟩
      decide
    · rintro name ⟨⟩
      decide
    · rintro ⟨⟩
    · rintro c ⟨⟩
      decide
  · refine .plain (by decide) (by decide) (by decide) (unclosed (by decide)) (by decide) ?_ ⟨?_, by decide⟩
    · intro front c back split pads
      have all : "(a\nb)".toList.any isPadding = false := by decide
      exact absurd pads (List.any_eq_false.mp all c (by rw [split]; simp))
    · intro front back split
      change ['(', 'a', '\n', 'b', ')'] = front ++ '\n' :: back at split
      rcases front with _ | ⟨a, _ | ⟨b, _ | ⟨c, front⟩⟩⟩
      · cases split
      · cases split
      · cases split
        decide
      · have mem : '\n' ∈ ['b', ')'] := by
          rw [(List.cons.inj (List.cons.inj (List.cons.inj split).2).2).2]
          simp
        simp at mem

/-- A description in which a callable is padded is printed as another one. -/
theorem not_read_of_fresh_callable :
    ¬ ∀ tags : List Tag, tags ≠ [] → (∀ tag ∈ tags, tag.IsCanonical) →
      ∃ output printed,
        Document.render ⟨Comment.ofEntries (tags.map Entry.tag), Comment.empty, []⟩ = .ok output ∧
          Dialect.plain.read output = .ok printed ∧
          List.Forall₂ ReadFrom tags printed.comment.entries := by
  intro all
  have canonical : (Tag.fresh "@return".toList (.typed (.returned (.named "int".toList))
      "callable (x)".toList)).IsCanonical := by
    refine .typed (by decide) ⟨?_, ?_, ?_, ?_⟩ ⟨?_, Text.unclosed_of_ne_star fun c mem same => ?_, by decide⟩
    · rintro type ⟨⟩
      decide
    · rintro (same | same) <;> cases same
    · rintro name ⟨⟩
    · rintro ⟨⟩
    · rintro c ⟨⟩
      decide
    · subst same
      revert mem
      decide
  obtain ⟨output, printed, rendered, run, read⟩ :=
    all _ (List.cons_ne_nil _ _) (List.forall_mem_singleton.mpr canonical)
  have written : Except.ok "/**\n * @return int callable(x)\n */".toList = Except.ok output :=
    Eq.trans rfl rendered
  obtain rfl := Except.ok.inj written
  have again : Dialect.plain.read "/**\n * @return int callable(x)\n */".toList = .ok _ := rfl
  obtain rfl := Except.ok.inj (again.symm.trans run)
  obtain ⟨⟨span, same⟩, _⟩ := List.forall₂_cons.mp read
  cases same

end DocComment
