import DocComment.Proofs.Reading.Failing
import DocComment.Proofs.Reading.Grafting
import DocComment.Proofs.Reading.TagLines

/-!
# Tags line by line

Which tags a comment has is seen from its lines, one after the other
(`tagNames_of_read`).  All that a line needs to know of those in front of it is how
many parentheses are open: while some are, it goes on with the payload of a tag, and
else it begins an entry or goes on with a description, which has no tag.
-/

namespace DocComment

open Token

namespace Dialect

open Read Cursor Payload.Grammar

variable {dialect : Dialect} {here there behind after : Cursor} {item : Entry} {name : Text}
  {block gap : List Token}
  {others : List (List Token)}

theorem tagNames_of_open {depth : Nat} (deep : depth ≠ 0) (line : List Token)
    (lines : List (List Token)) :
    tagNames dialect depth (line :: lines) = tagNames dialect (openRounds depth line) lines := by
  rw [tagNames, depthBehind, if_neg deep, if_neg fun flat => deep flat.1]
  rfl

theorem tagNames_of_untagged {line : List Token} (untagged : (inFrontOf line).isAt .tag = false)
    (lines : List (List Token)) :
    tagNames dialect 0 (line :: lines) = tagNames dialect 0 lines := by
  have flat : depthBehind dialect 0 line = 0 := if_pos ⟨rfl, .inl untagged⟩
  rw [tagNames, flat, leadName?, untagged, if_neg Bool.false_ne_true, if_pos rfl]
  rfl

/-! ## Plain payloads -/

/-- Behind the tokens that belong to a plain payload as many parentheses are open
as behind its last line. -/
theorem tagNames_of_plainLength {depth : Nat} {tokens line : List Token}
    {behind : List (List Token)}
    (split : lines (tokens.take (plainLength depth tokens)) = line :: behind) :
    tagNames dialect (openRounds depth line) (behind ++ others) =
      tagNames dialect (openRounds depth (tokens.take (plainLength depth tokens))) others := by
  induction tokens generalizing depth line behind with
  | nil =>
      cases split
      rfl
  | cons token tokens ih =>
      rw [plainLength_cons] at split ⊢
      split at split
      next stops =>
        rw [if_pos stops]
        cases split
        rfl
      next goesOn =>
        rw [if_neg goesOn]
        rw [List.take_succ_cons] at split ⊢
        obtain ⟨inner, more, found⟩ :=
          exists_lines (tokens.take (plainLength (roundsBehind depth token.kind) tokens))
        have later := ih found
        by_cases broken : token.kind = .lineBreak
        · have deep : depth ≠ 0 := fun flat => goesOn (.inr ⟨broken, flat⟩)
          have same : roundsBehind depth token.kind = depth := by
            rw [broken]
            rfl
          rw [lines_cons_of_lineBreak broken, found] at split
          cases split
          rw [same] at later
          rw [List.cons_append, openRounds, List.foldl_nil, tagNames_of_open deep, later,
            openRounds, openRounds, List.foldl_cons, same]
        · rw [lines_cons broken, found] at split
          cases split
          exact later

/-- A plain payload that ends in front of a line break has closed its parentheses. -/
theorem openRounds_take_plainLength {depth : Nat} {tokens : List Token} {next : Token}
    (stands : (tokens.drop (plainLength depth tokens)).head? = some next)
    (broken : next.kind = .lineBreak) :
    openRounds depth (tokens.take (plainLength depth tokens)) = 0 := by
  induction tokens generalizing depth with
  | nil => cases stands
  | cons token tokens ih =>
      rw [plainLength_cons] at stands ⊢
      split at stands
      next stops =>
        rw [if_pos stops]
        cases stands
        rcases stops with closes | ⟨-, flat⟩
        · rw [broken] at closes
          cases closes
        · exact flat
      next goesOn =>
        rw [if_neg goesOn]
        exact ih stands

/-! ## Descriptions -/

/-- No tag begins a line when none stands at a place in front of it. -/
theorem isAt_tag_inFrontOf {line rest : List Token} (untagged : here.isAt .tag = false)
    (stands : here.rest = (line ++ rest).dropWhile fun token => token.kind == .padding) :
    (inFrontOf line).isAt .tag = false := by
  have skipped : (inFrontOf line).rest = (line ++ [feed]).dropWhile fun token =>
    token.kind == .padding := rfl
  rw [List.dropWhile_append] at stands skipped
  split at skipped
  next empty => exact isAt_of_rest skipped _
  next proper =>
    rw [if_neg proper] at stands
    cases core : line.dropWhile fun token => token.kind == .padding with
    | nil => exact absurd (by rw [core]; rfl) proper
    | cons first core =>
        rw [core] at stands skipped
        rw [isAt_of_rest stands] at untagged
        rw [isAt_of_rest skipped, untagged]

theorem isAt_tag_of_continues (more : continues here = true) : here.advance.isAt .tag = false := by
  cases marked : here.advance.isAt .tag with
  | false => rfl
  | true =>
      rw [continues, beq_iff_eq.mp marked, Bool.and_false] at more
      cases more

/-- The lines that a description goes on over have no tags. -/
theorem exists_of_goesOn (goesOn : GoesOn here after) :
    ∃ crossed behind, here.rest = crossed ++ after.rest ∧ lines crossed = [] :: behind ∧
      ∀ others, tagNames dialect 0 (behind ++ others) = tagNames dialect 0 others := by
  induction goesOn with
  | stays cursor => exact ⟨[], [], rfl, lines_nil, fun _ => rfl⟩
  | @line cursor after more later ih =>
      obtain ⟨crossed, behind, rest, split, untagged⟩ := ih
      have broken : cursor.isAt .lineBreak = true :=
        beq_iff_eq.mpr (isAt_lineBreak_of_continues more)
      obtain ⟨first, gap, stands, kind, -⟩ := exists_advance broken
      rw [toLineEnd_eq] at rest
      have stepped := rest_step stands
      have whole :=
        List.takeWhile_append_dropWhile (p := fun token : Token => isInLine token.kind)
          (l := cursor.step.rest)
      have inside : ∀ token ∈ cursor.step.rest.takeWhile (fun token => isInLine token.kind),
          token.kind ≠ .lineBreak := by
        intro token mem broken
        have within := List.mem_takeWhile_imp (p := fun token : Token => isInLine token.kind) mem
        rw [broken] at within
        cases within
      have dropped : cursor.step.rest.dropWhile (fun token => isInLine token.kind) =
        crossed ++ after.rest := rest
      rw [dropped] at whole
      generalize cursor.step.rest.takeWhile (fun token => isInLine token.kind) =
        line at whole inside
      refine ⟨first :: (line ++ crossed), line :: behind, ?_, ?_, fun others => ?_⟩
      · rw [stands, ← stepped, ← whole]
        simp only [List.cons_append, List.append_assoc]
      · rw [lines_cons_of_lineBreak kind, lines_unbroken_append inside split, List.append_nil]
      · have advanced : cursor.advance.rest = cursor.step.rest.dropWhile fun token =>
          token.kind == .padding := rfl
        have line? := isAt_tag_inFrontOf (isAt_tag_of_continues more) (by rw [advanced, ← whole])
        rw [List.cons_append, tagNames_of_untagged line?, untagged]

/-! ## Tags -/

theorem grammar?_eq_some {kind : Subject.Kind} (grammar : dialect.grammar? name = some kind) :
    dialect.rule? name = none ∧ Subject.Kind.ofTagName? name = some kind := by
  rw [grammar?] at grammar
  split at grammar
  next => cases grammar
  next free => exact ⟨free, grammar⟩

/--
A payload is a subject with a description where it fits its grammar, and else it ends as
a plain one.
-/
theorem payload_cases (verbatim : dialect.OnlyVerbatim) {content : Payload × Option Text}
    (marked : here.isAt .tag = true) (named : tagName dialect here = .ok name behind)
    (taken : payload dialect name behind = .ok content after) :
    fitsGrammar dialect here = false ∧ after = behindWritten behind ∨
      fitsGrammar dialect here = true ∧
      ∃ kind value middle found, subject kind behind = .ok value middle ∧
        description middle = .ok found after := by
  have fits := fitsGrammar_eq_true_iff marked named
  have run := taken
  rw [payload] at run
  obtain ⟨result, middle, ran, run⟩ := bind_eq_ok.mp run
  cases result with
  | none =>
      have unfit := unfit_of_specificPayload ran
      refine .inl ⟨Bool.eq_false_iff.mpr fun held => ?_, ?_⟩
      · obtain ⟨kind, value, middle, grammar, subject?⟩ := fits.mp held
        obtain ⟨free, typed⟩ := grammar?_eq_some grammar
        obtain ⟨failure, stop, failed⟩ := unfit.grammar free kind typed
        obtain ⟨found, last, described⟩ := succeeds_description middle
        rw [typedWithWording, run_bind_of_ok subject?, run_bind_of_ok described] at failed
        cases failed
      · rw [unfit.run_payload] at taken
        split at taken <;> cases taken
        rfl
  | some found =>
      cases run
      cases claimed : dialect.rule? name with
      | some rule =>
          obtain ⟨names, rfl⟩ := verbatim rule (mem_of_rule? claimed)
          have whole := run_specificPayload_of_rule claimed (plainText_eq behind)
          rw [ran] at whole
          cases whole
          refine .inl ⟨Bool.eq_false_iff.mpr fun held => ?_, rfl⟩
          obtain ⟨_, _, _, grammar, -⟩ := fits.mp held
          rw [(grammar?_eq_some grammar).1] at claimed
          cases claimed
      | none =>
          cases typed : Subject.Kind.ofTagName? name with
          | none =>
              rw [specificPayload_of_none claimed typed] at ran
              cases ran
          | some kind =>
              rw [specificPayload_of_kind claimed typed] at ran
              obtain ⟨value, middle, subject?, later⟩ := bind_eq_ok.mp (attempt_eq_some ran)
              obtain ⟨found, last, described, finished⟩ := bind_eq_ok.mp later
              cases finished
              have grammar : dialect.grammar? name = some kind := by rw [grammar?, claimed, typed]
              exact .inr ⟨fits.mpr ⟨kind, value, middle, grammar, subject?⟩, kind, value, middle,
                found, subject?,
                described⟩

theorem goesOn_of_description {found : Text × Option Text}
    (run : description here = .ok found after) :
    GoesOn here.toLineEnd after := by
  rw [description, run_bind_of_ok (restOfLine_eq here)] at run
  split at run
  next =>
    cases run
    exact .stays _
  next =>
    rw [run_get_bind] at run
    obtain ⟨lines, middle, ran, finished⟩ := bind_eq_ok.mp run
    cases finished
    exact goesOn_of_furtherLines ran

theorem leadName?_of_entry (run : entry dialect here = .ok item after) :
    leadName? dialect here = item.tag?.map Tag.name := by
  rcases entry_eq_ok run with ⟨marked, run⟩ | ⟨unmarked, run⟩
  · obtain ⟨name, behind, content, read, named, -, rfl, -⟩ := tag_eq_ok run
    exact leadName?_of_tagName marked named
  · obtain ⟨-, span, -, rfl⟩ := prose_eq_ok run
    exact if_neg unmarked

/-- The tokens of the name of a tag stand on its line. -/
theorem exists_of_tagName (marked : here.isAt .tag = true)
    (named : tagName dialect here = .ok name behind) :
    ∃ lead, here.rest = lead ++ behind.rest ∧
      ∀ token ∈ lead, token.kind = .tag ∨ token.kind = .name ∨ token.kind = .padding := by
  obtain ⟨first, gap, rest, kind, -⟩ := exists_advance marked
  obtain ⟨crossed, split, all⟩ := (crosses_tagName named).exists_crossed
  rw [rest_step rest] at split
  refine ⟨first :: crossed, by rw [rest, split]; rfl,
    List.forall_mem_cons.mpr ⟨.inl kind, fun token mem => ?_⟩⟩
  exact .inr (all token mem)

/-- The lines behind the one that a tag begins on have no tags of their own, and
close its parentheses. -/
theorem tagNames_behind_tag (verbatim : dialect.OnlyVerbatim) (marked : here.isAt .tag = true)
    (run : tag dialect here = .ok item after) (soft : ∀ token ∈ gap, token.kind = .padding)
    (split : here.rest = block ++ after.rest) {line : List Token} {later : List (List Token)}
    (found : lines block = line :: later)
    (alike : LeadsAlike dialect here (inFrontOf (gap ++ line)))
    (ends : (∃ token, after.rest.head? = some token ∧ token.kind = .lineBreak) ∨ others = []) :
    tagNames dialect (depthBehind dialect 0 (gap ++ line)) (later ++ others) =
      tagNames dialect 0 others := by
  obtain ⟨name, behind, content, read, named, taken, -, moved⟩ := tag_eq_ok run
  have ended := isAtLineEnd_of_payload verbatim taken
  rw [tagStop_eq ended, if_neg (Nat.not_lt.mpr (significantEnd_le _ _))] at moved
  subst moved
  obtain ⟨lead, rest, kinds⟩ := exists_of_tagName marked named
  have unbroken : ∀ token ∈ lead, token.kind ≠ .lineBreak := fun token mem => by
    rcases kinds token mem with kind | kind | kind <;> rw [kind] <;> decide
  rcases payload_cases verbatim marked named taken with ⟨unfit, rfl⟩ |
    ⟨fits, kind, value, middle, found', took, told⟩
  · -- The payload ends where its parentheses are closed.
    have taken : behind.rest = behind.rest.take (plainLength 0 behind.rest) ++
        (behindWritten behind).rest :=
      (List.take_append_drop _ _).symm
    obtain ⟨inner, more, found'⟩ := exists_lines (behind.rest.take (plainLength 0 behind.rest))
    have whole : block = lead ++ behind.rest.take (plainLength 0 behind.rest) := by
      rw [rest, taken, ← List.append_assoc] at split
      exact (List.append_cancel_right split).symm
    rw [whole, lines_unbroken_append unbroken found'] at found
    obtain ⟨rfl, rfl⟩ := List.cons.inj found
    have deep : depthBehind dialect 0 (gap ++ (lead ++ inner)) = openRounds 0 inner := by
      have flat : ∀ token ∈ gap ++ lead, token.kind ≠ .roundOpen ∧ token.kind ≠ .roundClose := by
        refine List.forall_mem_append.mpr ⟨fun token mem => ?_, fun token mem => ?_⟩
        · rw [soft token mem]
          decide
        · rcases kinds token mem with kind | kind | kind <;> rw [kind] <;> decide
      rw [depthBehind, ← alike.tag, ← alike.fits, marked, unfit, if_neg (by simp),
        ← List.append_assoc, openRounds_append, openRounds_of_flat 0 flat]
    rw [deep, tagNames_of_plainLength found']
    rcases ends with ⟨token, head, broken⟩ | rfl
    · rw [openRounds_take_plainLength head broken]
    · rfl
  · -- The subject stands on the first line, and the description may go on over further ones.
    have flat : depthBehind dialect 0 (gap ++ line) = 0 :=
      if_pos ⟨rfl, .inr (alike.fits.symm.trans fits)⟩
    have crosses : behind.Crosses (· ≠ .lineBreak) middle.toLineEnd := by
      have subject? := (staysWithin_subject kind behind).of_ok took
      refine (subject?.mono fun kind inside => ?_).trans
        (middle.crosses_toLineEnd.mono fun kind inside => inside.1)
      rintro rfl
      cases inside
    obtain ⟨crossed, rest', inline⟩ := crosses.exists_crossed
    obtain ⟨further, behind', rest'', found'', untagged⟩ :=
      @exists_of_goesOn dialect _ _ (goesOn_of_description told)
    have whole : block = (lead ++ crossed) ++ further := by
      rw [rest, rest', rest'', ← List.append_assoc, ← List.append_assoc] at split
      exact (List.append_cancel_right split).symm
    rw [whole, lines_unbroken_append
      (List.forall_mem_append.mpr ⟨unbroken, inline⟩) found''] at found
    obtain ⟨rfl, rfl⟩ := List.cons.inj found
    rw [flat, untagged]

/-- The lines of an entry have its name, if it is a tag, and no other one. -/
theorem tagNames_of_entry (verbatim : dialect.OnlyVerbatim) (pieces : ArePieces here.tokens)
    (firm : here.kind? ≠ some .padding) (run : entry dialect here = .ok item after)
    (soft : ∀ token ∈ gap, token.kind = .padding) (split : here.rest = block ++ after.rest)
    (ends : (∃ token, after.rest.head? = some token ∧ token.kind = .lineBreak) ∨ others = []) :
    tagNames dialect 0 (lines (gap ++ block) ++ others) =
      (item.tag?.map Tag.name).toList ++ tagNames dialect 0 others := by
  obtain ⟨line, later, found⟩ := exists_lines block
  obtain ⟨unbroken, whole⟩ := exists_of_lines found
  obtain ⟨core, final, rfl, final?, last⟩ := exists_firm line
  have unbroken' : ∀ token ∈ gap, token.kind ≠ .lineBreak := fun token mem => by
    rw [soft token mem]
    decide
  rw [lines_unbroken_append unbroken' found, List.cons_append, tagNames, if_pos rfl]
  obtain ⟨_, _, covers⟩ := covers_of_entry verbatim run
  -- What stands behind the first line: the lines of the entry behind it, or what follows the entry.
  obtain ⟨back, stands, endLine, bare⟩ :
      ∃ back, here.rest = core ++ (final ++ back) ∧ EndLine back ∧
      (back = [] → later = [] ∧ after.rest = []) := by
    rcases whole with ⟨rfl, rfl⟩ | ⟨token, more, rfl, broken, -⟩
    · exact ⟨after.rest, by rw [split, List.append_assoc], covers.ends, fun none => ⟨rfl, none⟩⟩
    · refine ⟨token :: more ++ after.rest, by rw [split]; simp only [List.append_assoc], ?_,
        fun none => absurd none (List.cons_ne_nil _ _)⟩
      rintro _ ⟨⟩
      exact .inl broken
  have soft' : ArePadding final := pieces.arePadding (fun token mem => List.mem_append_right _
    (stands ▸ List.mem_append_right _ (List.mem_append_left _ mem))) final?
  have trims : Trims (gap ++ (core ++ final)) gap core final :=
    { whole := rfl
      front := soft
      back := final?
      head :=
        fun token head pads => firm (by rw [kind?, stands, List.head?_append, head, ← pads]; rfl)
      last }
  have sharing : Sharing back [feed] core here (inFrontOf (gap ++ (core ++ final))) :=
    ⟨⟨final, soft', stands⟩, rest_inFrontOf trims soft', trims.last⟩
  have ends' : Ends back [feed] := ⟨endLine, endLine_feed, List.cons_ne_nil _ _⟩
  rw [← leadName?_of_sharing ends' sharing, leadName?_of_entry run]
  congr 1
  by_cases proper : back = []
  · obtain ⟨rfl, ended⟩ := bare proper
    rcases ends with ⟨token, head, -⟩ | rfl
    · rw [ended] at head
      cases head
    · rfl
  have alike := @leadsAlike_of_sharing dialect _ _ _ _ _ ends' sharing proper
  rcases entry_eq_ok run with ⟨marked, run⟩ | ⟨unmarked, run⟩
  · exact tagNames_behind_tag verbatim marked run soft split found alike ends
  · have flat : depthBehind dialect 0 (gap ++ (core ++ final)) = 0 :=
      if_pos ⟨rfl, .inl (alike.tag.symm.trans (Bool.eq_false_iff.mpr unmarked))⟩
    obtain ⟨rfl, -⟩ := prose_eq_ok run
    obtain ⟨crossed, rest, inline⟩ := here.crosses_toLineEnd.exists_crossed
    rw [split] at rest
    rw [List.append_cancel_right rest,
      lines_of_unbroken fun token mem => (inline token mem).1] at found
    obtain ⟨-, rfl⟩ := List.cons.inj found
    rw [flat]
    rfl

/-! ## Whole comments -/

/-- The names of the tags among entries. -/
def namesOf (items : List Entry) : List Text :=
  items.filterMap fun item => item.tag?.map Tag.name

theorem namesOf_cons (item : Entry) (items : List Entry) :
    namesOf (item :: items) = (item.tag?.map Tag.name).toList ++ namesOf items := by
  rw [namesOf, List.filterMap_cons]
  cases item.tag?.map Tag.name <;> rfl

theorem beforeClosing_of_isAtClose (closes : here.isAtClose = true) :
    beforeClosing here.rest = [] := by
  rw [isAtClose_iff] at closes
  cases stands : here.rest with
  | nil => rfl
  | cons first rest =>
    exact List.takeWhile_cons_of_neg (by simp [closes first (by rw [stands]; rfl)])

theorem tagNames_of_padding (soft : ∀ token ∈ gap, token.kind = .padding)
    (lines : List (List Token)) :
    tagNames dialect 0 (gap :: lines) = tagNames dialect 0 lines := by
  refine tagNames_of_untagged (@isAt_tag_inFrontOf ⟨[], [feed]⟩ gap [feed] rfl ?_) lines
  rw [List.dropWhile_append_of_pos fun token mem => beq_iff_eq.mpr (soft token mem)]
  rfl

/-- The lines of an entry in front of others, behind the padding in front of it. -/
theorem tagNames_of_entry_beforeClosing (verbatim : dialect.OnlyVerbatim)
    (pieces : ArePieces here.tokens)
    (firm : here.kind? ≠ some .padding) (run : entry dialect here = .ok item after)
    (soft : ∀ token ∈ gap, token.kind = .padding)
    (split : lines (beforeClosing after.rest) = [] :: others) :
    tagNames dialect 0 (lines (beforeClosing (gap ++ here.rest))) =
      (item.tag?.map Tag.name).toList ++ tagNames dialect 0 others := by
  obtain ⟨shared, padding, covers⟩ := covers_of_entry verbatim run
  have whole : here.rest = (shared ++ padding) ++ after.rest := by
    rw [covers.rest, List.append_assoc]
  have unclosed : ∀ token ∈ gap ++ (shared ++ padding), token.kind ≠ .closing := by
    refine List.forall_mem_append.mpr
      ⟨fun token mem => ?_, List.forall_mem_append.mpr ⟨covers.unclosed, ?_⟩⟩
    · rw [soft token mem]
      decide
    · intro token mem
      rw [covers.soft token mem]
      decide
  have ends : (∃ token, after.rest.head? = some token ∧ token.kind = .lineBreak) ∨ others = [] := by
    cases stands : after.rest with
    | nil =>
        rw [stands] at split
        exact .inr (List.cons.inj split).2.symm
    | cons first rest =>
        refine (covers.ends first (by rw [stands]; rfl)).imp (fun broken => ⟨first, rfl, broken⟩)
          fun closed => ?_
        rw [stands, beforeClosing, List.takeWhile_cons_of_neg (by simp [closed])] at split
        exact (List.cons.inj split).2.symm
  rw [whole, ← List.append_assoc, beforeClosing_append unclosed, lines_append_of_nil split]
  exact tagNames_of_entry verbatim pieces firm run soft whole ends

/-- Padding in front of lines does not matter. -/
theorem lines_beforeClosing_of_padding (soft : ∀ token ∈ gap, token.kind = .padding)
    {tokens : List Token} (split : lines (beforeClosing tokens) = [] :: others) :
    lines (beforeClosing (gap ++ tokens)) = gap :: others := by
  have unclosed : ∀ token ∈ gap, token.kind ≠ .closing := fun token mem => by
    rw [soft token mem]
    decide
  have unbroken : ∀ token ∈ gap, token.kind ≠ .lineBreak := fun token mem => by
    rw [soft token mem]
    decide
  rw [beforeClosing_append unclosed, lines_unbroken_append unbroken split, List.append_nil]

/-- Behind the end of a line, the lines up to the closing marker have the names of
the tags that are read. -/
theorem exists_lines_of_trail (verbatim : dialect.OnlyVerbatim) {items : List Entry}
    (pieces : ArePieces here.tokens) (trail : Trail dialect here items) :
    ∃ later, lines (beforeClosing here.rest) = [] :: later ∧
      tagNames dialect 0 later = namesOf items := by
  -- The line break in front of a line is left out, and the padding behind it belongs to the line.
  have behind {cursor : Cursor} (broken : cursor.isAt .lineBreak = true) :
      ∃ gap, (∀ token ∈ gap, token.kind = .padding) ∧
        lines (beforeClosing cursor.rest) =
        [] :: lines (beforeClosing (gap ++ cursor.advance.rest)) := by
    obtain ⟨first, gap, stands, kind, soft⟩ := exists_advance broken
    refine ⟨gap, soft, ?_⟩
    have front : ∀ token ∈ [first], token.kind ≠ .closing := by
      rintro _ ⟨⟩
      · rw [kind]
        decide
      · contradiction
    rw [stands, ← List.singleton_append, beforeClosing_append front, List.singleton_append,
      lines_cons_of_lineBreak kind]
  induction trail with
  | @closed cursor closes => exact ⟨[], by rw [beforeClosing_of_isAtClose closes]; rfl, rfl⟩
  | @ended cursor broken closes =>
      obtain ⟨gap, soft, split⟩ := behind broken
      have closed : lines (beforeClosing cursor.advance.rest) = [[]] := by
        rw [beforeClosing_of_isAtClose closes, lines_nil]
      refine ⟨_, split, ?_⟩
      rw [lines_beforeClosing_of_padding soft closed, tagNames_of_padding soft]
      rfl
  | @next cursor after item items broken opens run later ih =>
      obtain ⟨gap, soft, split⟩ := behind broken
      obtain ⟨-, tokens, -⟩ := length_lt_of_entry verbatim broken run
      obtain ⟨others, found, names⟩ := ih (tokens ▸ pieces)
      have firm : cursor.advance.kind? ≠ some .padding := kind?_skipPadding_ne _
      refine ⟨_, split, ?_⟩
      rw [tagNames_of_entry_beforeClosing verbatim
        (cursor.tokens_advance ▸ pieces) firm run soft found, names, namesOf_cons]

/-- The names of the tags of a comment are seen from its lines. -/
theorem tagNames_of_read (verbatim : dialect.OnlyVerbatim) {text : Text} {document : Document}
    {front body : List Token} {opening : Token} (run : dialect.read text = .ok document)
    (split : scan text = front ++ opening :: body)
    (soft : ∀ token ∈ front, token.kind = .padding) (opens : opening.kind = .opening) :
    namesOf document.comment.entries = tagNames dialect 0 (lines (beforeClosing body)) := by
  have heads := heads_of_read verbatim run
  generalize document.comment.entries = items at heads
  let first := ofTokens (scan text)
  have stands : first.rest = opening :: body := by
    change (scan text).dropWhile (fun token => token.kind == .padding) = _
    rw [split, List.dropWhile_append_of_pos fun token mem => beq_iff_eq.mpr (soft token mem)]
    exact List.dropWhile_cons_of_neg (by simp [opens])
  have opened : first.isAt .opening = true := by
    rw [isAt_of_rest stands, opens]
    rfl
  have pieces : ArePieces first.advance.tokens := by
    have whole : first.tokens = scan text := tokens_placed _ _
    rw [tokens_advance, whole]
    exact fun token mem known => isPiece_of_mem_scan mem known
  obtain ⟨_, gap, rest, -, soft'⟩ := exists_advance opened
  obtain ⟨-, rfl⟩ := List.cons.inj (stands.symm.trans rest)
  rw [firstPlace] at heads
  cases broken : first.advance.isAt .lineBreak with
  | true =>
      rw [accept_of_isAt broken] at heads
      obtain ⟨later, found, names⟩ := exists_lines_of_trail verbatim pieces (heads.trail broken)
      rw [lines_beforeClosing_of_padding soft' found, tagNames_of_padding soft', names]
  | false =>
      rw [accept_of_not_isAt broken] at heads
      cases heads with
      | closed closes =>
          have closed : lines (beforeClosing first.advance.rest) = [[]] := by
            rw [beforeClosing_of_isAtClose closes, lines_nil]
          rw [lines_beforeClosing_of_padding soft' closed, tagNames_of_padding soft']
          rfl
      | first opens run later =>
          obtain ⟨_, fills⟩ := fills_of_entry verbatim run
          obtain ⟨others, found, names⟩ :=
            exists_lines_of_trail verbatim (fills.crosses.tokens ▸ pieces) later
          have firm : first.advance.kind? ≠ some .padding := kind?_skipPadding_ne _
          rw [tagNames_of_entry_beforeClosing verbatim pieces firm run soft' found, names,
            namesOf_cons]

end Dialect

end DocComment
