import DocComment.Proofs.Reading.OnOneLine
import DocComment.Proofs.Reading.SoleTag

/-!
# The pieces of a comment with one tag

A comment whose only entry with content is a typed tag is cut at the marker of the tag, behind its
subject and at the closing marker (`exists_sections`).
-/

namespace DocComment

open Token

namespace Dialect

open Cursor Payload.Grammar

variable {text description : Text} {before after : Cursor} {tag : Tag} {subject : Subject}

/-- A subject that was read is cut from the padding behind it. -/
theorem exists_of_subject {kind : Subject.Kind} {marker : Token} {more : List Token}
    (whole : before.tokens = scan text) (stands : before.rest = marker :: more)
    (run : Payload.Grammar.subject kind before.step.skipPadding = .ok subject after) :
    ∃ own gap, more = own ++ (gap ++ after.rest) ∧ (∀ token ∈ own, token.kind.isWithinType = true) ∧
      (∀ token, own.getLast? = some token → token.kind ≠ .padding) ∧
      (∀ token ∈ gap, token.kind = .padding) ∧
        after.kind? ≠ some .padding := by
  have crosses := (staysWithin_subject kind _).of_ok run
  obtain ⟨crossed, split, within⟩ := crosses.exists_crossed
  have moved : before.step.rest = more := rest_step stands
  have skipped : more = (more.takeWhile fun token => token.kind == .padding) ++
      (crossed ++ after.rest) := by
    rw [← split]
    change more = _ ++ before.step.rest.dropWhile _
    rw [moved, List.takeWhile_append_dropWhile]
  obtain ⟨own, gap, same, soft, firm⟩ :=
    exists_firm ((more.takeWhile fun token => token.kind == .padding) ++ crossed)
  refine ⟨own, gap, ?_, fun token mem => ?_, firm, soft, fun pads => ?_⟩
  · rw [← List.append_assoc, ← same, List.append_assoc]
    exact skipped
  · rcases List.mem_append.mp (same ▸ List.mem_append_left gap mem) with pads | inside
    · rw [beq_iff_eq.mp
        (List.mem_takeWhile_imp (p := fun token : Token => token.kind == .padding) pads)]
      rfl
    · exact within token inside
  · have separated := (reads_of_subject run).2
    rw [Bool.or_eq_true, Cursor.isAtLineEnd_eq, isAtClose, isAtEnd_eq, isAt, isAt,
      pads] at separated
    rcases separated with ends | behind
    · cases ends
    · have same : after.tokens = scan text := by
        rw [crosses.tokens, skipPadding, tokens_skipWhile, tokens_step, whole]
      exact kind?_ne_padding_of_isAfterPadding same behind pads

theorem takeWhile_append_closing {closing : Token} (closes : closing.kind = .closing)
    (near rest : List Token) :
    (near ++ closing :: rest).takeWhile (fun token => isInLine token.kind) =
      near.takeWhile fun token => isInLine token.kind := by
  induction near with
  | nil => rw [List.nil_append, List.takeWhile_cons, closes]; rfl
  | cons first near ih => rw [List.cons_append, List.takeWhile_cons, List.takeWhile_cons, ih]

/-- The words of a description are all that stand in front of the closing marker,
if blanks follow it there. -/
theorem exists_of_described {found : Text × Option Text} {trail rest : List Token} {closing : Token}
    (run : Payload.Grammar.description before = .ok found after)
    (stands : after.rest = trail ++ closing :: rest)
    (blank : AreBlank trail) (unclosed : ∀ token ∈ trail, token.kind ≠ .closing)
    (closes : closing.kind = .closing) :
    ∃ near, before.rest = near ++ closing :: rest ∧ (∀ token ∈ near, token.kind ≠ .closing) ∧
      found.1 = Text.collapse (runningText near) ∧
      ((∀ c ∈ textOf (near.takeWhile fun token => isInLine token.kind), isBlank c = true) →
        ∀ c ∈ runningText near, isBlank c = true) := by
  obtain ⟨taken, split, written, still⟩ := exists_of_description run
  obtain ⟨crossed, split', unclosed'⟩ := ((crosses_description before).of_ok run).exists_crossed
  obtain rfl := List.append_cancel_right (split.symm.trans split')
  rw [stands, ← List.append_assoc] at split
  have blank' := blank_runningText blank
  have line : (before.rest.takeWhile fun token => isInLine token.kind) =
      (taken ++ trail).takeWhile fun token => isInLine token.kind := by
    rw [split, takeWhile_append_closing closes]
  rw [line] at still
  refine ⟨taken ++ trail, split, List.forall_mem_append.mpr ⟨unclosed', unclosed⟩, ?_,
    fun first => ?_⟩
  · rw [written, runningText_append, Text.collapse, Text.collapse,
      Text.words_append_of_blank blank']
  · rw [runningText_append]
    refine List.forall_mem_append.mpr ⟨?_, blank'⟩
    have all := still first
    rw [← all] at first
    rw [all, runningText_of_inLine (inLine_takeWhile _), ← all]
    exact first

end Dialect

/-! ## The pieces in order -/

namespace Token

open Cursor

variable {tokens : List Token} {token : Token}

/-- Joining keeps the text of a line. -/
theorem textOf_takeWhile_joined (tokens : List Token) :
    textOf ((joined tokens).takeWhile fun token => isInLine token.kind) =
      textOf (tokens.takeWhile fun token => isInLine token.kind) := by
  induction tokens with
  | nil => rfl
  | cons token tokens ih =>
      rw [joined_cons, List.takeWhile_cons]
      cases whole : joined tokens with
      | nil =>
          rw [whole] at ih
          rw [prepend, List.takeWhile_cons]
          split
          · rw [textOf_cons, textOf_cons, ih]
          · rfl
      | cons next others =>
          rw [whole, List.takeWhile_cons] at ih
          rw [prepend]
          split
          next both =>
            rw [both.2] at ih
            rw [List.takeWhile_cons, both.1]
            change textOf (_ :: _) = textOf (token :: _)
            change textOf (next :: _) = _ at ih
            rw [textOf_cons, textOf_cons, ← ih, textOf_cons, List.append_assoc]
          next =>
            rw [List.takeWhile_cons]
            split
            · rw [textOf_cons, textOf_cons, List.takeWhile_cons, ih]
            · rfl

theorem known_of_padding (soft : ArePadding tokens) : ∀ token ∈ tokens, token.kind ≠ .other :=
  fun token mem other => by
  cases (soft token mem).1.symm.trans other

theorem known_of_within (within : ∀ token ∈ tokens, token.kind.isWithinType = true) :
    ∀ token ∈ tokens, token.kind ≠ .other := by
  intro token mem other
  have inside := within token mem
  rw [other] at inside
  cases inside

theorem eq_of_joined_of_known (known : ∀ token ∈ joined tokens, token.kind ≠ .other) :
    tokens = joined tokens := by
  obtain ⟨others, split, none⟩ := exists_of_joined known (List.append_nil (joined tokens)).symm
  cases others with
  | nil => rwa [List.append_nil] at split
  | cons first others => exact absurd none (Prospect.joined_cons_ne_nil first others)

theorem IsPiece.eq_opening (cut : token.IsPiece) (opens : token.kind = .opening) :
    token = ⟨.opening, Cleanup.opener⟩ := by
  cases token
  cases opens
  exact congrArg _ (cut.text_of_opening rfl)

theorem IsPiece.eq_closing (cut : token.IsPiece) (closes : token.kind = .closing) :
    token = ⟨.closing, Cleanup.closer⟩ := by
  cases token
  cases closes
  exact congrArg _ (cut.text_of_closing rfl)

theorem mem_joined_of_mem (known : token.kind ≠ .other) (mem : token ∈ tokens) :
    token ∈ joined tokens := by
  obtain ⟨front, back, rfl⟩ := List.append_of_mem mem
  rw [joined_append_cons known]
  exact List.mem_append_right _ List.mem_cons_self

theorem mem_of_mem_joined (known : token.kind ≠ .other) (mem : token ∈ joined tokens) :
    token ∈ tokens := by
  obtain ⟨front, back, split⟩ := List.append_of_mem mem
  obtain ⟨first, last, rfl, -, -⟩ := exists_of_joined_cons known split
  exact List.mem_append_right _ List.mem_cons_self

end Token

/-- The tokens of a comment with one tag, but for the markers. -/
structure Sections where
  pads : List Token
  lead : List Token
  own : List Token
  gap : List Token
  near : List Token
  rest : List Token

namespace Sections

variable {text name : Text} {sections : Sections}

/-- The tokens from the marker of a tag of the given name on. -/
def behind (name : Text) (sections : Sections) : List Token :=
  ⟨.tag, name⟩ :: (sections.own ++ (sections.gap ++ (sections.near ++ ⟨.closing, Cleanup.closer⟩ :: sections.rest)))

/-- The tokens of the comment. -/
def tokens (name : Text) (sections : Sections) : List Token :=
  sections.pads ++ ⟨.opening, Cleanup.opener⟩ :: (sections.lead ++ sections.behind name)

theorem exists_unjoined (split : scan text = sections.tokens name)
    (pads : ∀ token ∈ sections.pads, token.kind ≠ .other)
    (own : ∀ token ∈ sections.own, token.kind ≠ .other)
    (gap : ∀ token ∈ sections.gap, token.kind ≠ .other) :
    ∃ lead near rest, unjoined text = tokens name { sections with lead, near, rest } ∧
      joined lead = sections.lead ∧
      joined near = sections.near ∧ joined rest = sections.rest := by
  rw [← joined_unjoined] at split
  have opener : ∀ token ∈ [(⟨.opening, Cleanup.opener⟩ : Token)], token.kind ≠ .other := by decide
  have marker : (⟨.tag, name⟩ : Token).kind ≠ .other := nofun
  have closing : (⟨.closing, Cleanup.closer⟩ : Token).kind ≠ .other := nofun
  obtain ⟨opened, whole, split⟩ := exists_of_joined pads split
  obtain ⟨marked, rfl, split'⟩ := exists_of_joined opener split
  obtain ⟨lead, subject, rfl, lead', split''⟩ := exists_of_joined_cons marker split'
  obtain ⟨padded, rfl, within⟩ := exists_of_joined own split''
  obtain ⟨described, rfl, within'⟩ := exists_of_joined gap within
  obtain ⟨near, rest, rfl, near', rest'⟩ := exists_of_joined_cons closing within'
  exact ⟨lead, near, rest, whole, lead', near', rest'⟩

/-- The sections are those of a comment with one tag of the given subject and description. -/
structure IsTyped (text : Text) (tag : Tag) (subject : Subject) (description : Text) (sections : Sections) : Prop where
  cut : unjoined text = sections.tokens tag.name
  padded : ArePadding sections.pads
  blank : ∀ c ∈ runningText sections.lead, isBlank c = true
  /-- Other blanks stand only on lines in front of the tag. -/
  leads : ArePadding sections.lead ∨ ∃ token ∈ sections.lead, token.kind = .lineBreak
  within : ∀ token ∈ sections.own, token.kind.isWithinType = true
  firm : ∀ token, sections.own.getLast? = some token → token.kind ≠ .padding
  soft : ArePadding sections.gap
  begins : ∀ token, sections.near.head? = some token → token.kind ≠ .padding
  calls : Subject.Kind.ofTagName? tag.name = some subject.kind
  read : ∃ start middle : Cursor, start.rest = sections.own ++ (sections.gap ++ middle.rest) ∧
    start.isAfterPadding = false ∧ Payload.Grammar.subject subject.kind start.skipPadding = .ok subject middle ∧
      middle.rest = joined (sections.near ++ ⟨.closing, Cleanup.closer⟩ :: sections.rest)
  unclosed : ∀ token ∈ sections.near, token.kind ≠ .closing
  written : description = Text.collapse (runningText sections.near)
  /-- Behind a blank line there is no description. -/
  still : (∀ c ∈ textOf (sections.near.takeWhile fun token => Cursor.isInLine token.kind), isBlank c = true) →
    ∀ c ∈ runningText sections.near, isBlank c = true

end Sections

namespace Dialect

open Cursor Payload.Grammar Sections

variable {text description : Text} {tag : Tag} {subject : Subject} {document : Document}

/-- A comment whose only entry with content is a typed tag falls into its sections. -/
theorem exists_sections (run : plain.read text = .ok document)
    (closed : ∃ token ∈ document.tokens, token.kind = .closing)
    (sole : document.comment.entries.filter (fun item => !item.isVoid) = [.tag tag])
    (typed : tag.payload = .typed subject description) :
    ∃ sections : Sections, sections.IsTyped text tag subject description := by
  obtain ⟨pads, opener, lead, before, after, trail, closing, rest, split, padded, opens, blank,
    leads, whole, ran, stands,
    blank', unclosed, closes⟩ := exists_sole_of_read run closed sole
  obtain ⟨marked, named, -⟩ := payload_of_entry ran
  obtain ⟨calls, middle, held, described⟩ := subject_of_entry ran typed
  obtain ⟨near, split', unclosed', written, still⟩ :=
    exists_of_described described stands blank' unclosed closes
  obtain ⟨marker, more, here, marks⟩ := exists_cons_of_kind? (beq_iff_eq.mp marked)
  obtain ⟨own, gap, split'', within, firm, soft, hard⟩ := exists_of_subject whole here held
  have order : scan text =
      pads ++ opener :: (lead ++ marker :: (own ++ (gap ++ (near ++ closing :: rest)))) := by
    rw [split, here, split'', split']
  -- Every token but the others is a piece, so that the order of the tokens is one of pieces.
  have pieces := arePieces_scan text
  rw [order] at pieces
  have padded' := pieces.arePadding (fun token mem => by simp [mem]) padded
  have soft' := pieces.arePadding (fun token mem => by simp [mem]) soft
  obtain rfl := (pieces opener (by simp) (by rw [opens]; decide)).eq_opening opens
  obtain rfl := (pieces closing (by simp) (by rw [closes]; decide)).eq_closing closes
  have marker' : marker = ⟨.tag, tag.name⟩ := by
    rw [named, text_of_rest here, ← marks]
  rw [marker'] at order here
  obtain ⟨lead', near', rest', cut, rfl, rfl, rfl⟩ := @Sections.exists_unjoined text tag.name
    ⟨pads, lead, own, gap, near, rest⟩ order (known_of_padding padded') (known_of_within within)
    (known_of_padding soft')
  rw [runningText_joined] at written
  have blank'' := blank_runningText blank
  rw [runningText_joined] at blank''
  rw [textOf_takeWhile_joined, runningText_joined] at still
  have closing : (⟨.closing, Cleanup.closer⟩ : Token).kind ≠ .other := nofun
  rw [← joined_append_cons closing] at split'
  refine ⟨⟨pads, lead', own, gap, near', rest'⟩, cut, padded', blank'', ?_, within, firm,
    soft', ?_, calls,
    ⟨before.step, middle, ?_, ?_, held, split'⟩, ?_, written, still⟩
  · rcases leads with leads | ⟨token, mem, breaks⟩
    · have soft'' := pieces.arePadding (fun token mem => by simp [mem]) leads
      exact Or.inl (eq_of_joined_of_known (known_of_padding soft'') ▸ soft'')
    · exact Or.inr ⟨token, mem_of_mem_joined (by rw [breaks]; decide) mem, breaks⟩
  · intro token head pads
    refine hard ?_
    rw [kind?, split', head?_joined, List.head?_append,
      show near'.head? = some token from head, ← pads]
    rfl
  · rw [rest_step here]
    exact split''
  · rw [step, here]
    rfl
  · exact fun token mem closes =>
      unclosed' token (mem_joined_of_mem (by rw [closes]; decide) mem) closes

end Dialect

end DocComment
