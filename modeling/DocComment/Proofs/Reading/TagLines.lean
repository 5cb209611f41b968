import DocComment.Proofs.Reading.Erasure
import DocComment.Proofs.Reading.Exchange

/-!
# What a line says about tags

All that matters of a line for the names of the tags is seen from its tokens without
the padding around them and without the text of unknown tokens, its face
(`tagNames_eq_of_faces`): the name of the tag that it begins with, and how many
parentheses are open behind it.
-/

namespace DocComment

open Token

namespace Token

/-! ## Lines of tokens -/

/-- The tokens of each line, without the line breaks. -/
def lines (tokens : List Token) : List (List Token) :=
  tokens.splitOnP fun token => token.kind == .lineBreak

/-- The tokens in front of the closing marker. -/
def beforeClosing (tokens : List Token) : List Token :=
  tokens.takeWhile fun token => token.kind != .closing

/-- The tokens of a line without the padding around them and without the text of unknown ones. -/
def face (line : List Token) : List Token :=
  ((line.dropWhile fun token => token.kind == .padding).rdropWhile fun token => token.kind == .padding).map erase

variable {tokens more : List Token} {token : Token}

@[simp]
theorem lines_nil : lines [] = [[]] :=
  List.splitOnP_nil

theorem lines_of_unbroken (unbroken : ∀ token ∈ tokens, token.kind ≠ .lineBreak) :
    lines tokens = [tokens] :=
  List.splitOnP_eq_singleton fun token mem => beq_eq_false_iff_ne.mpr (unbroken token mem)

theorem lines_append (broken : token.kind = .lineBreak) (tokens more : List Token) :
    lines (tokens ++ token :: more) = lines tokens ++ lines more :=
  List.splitOnP_append_cons tokens more (beq_iff_eq.mpr broken)

theorem lines_cons_of_lineBreak (broken : token.kind = .lineBreak) (tokens : List Token) :
    lines (token :: tokens) = [] :: lines tokens :=
  lines_append broken [] tokens

theorem lines_cons (unbroken : token.kind ≠ .lineBreak) (tokens : List Token) :
    lines (token :: tokens) = (lines tokens).modifyHead (token :: ·) := by
  rw [lines, List.splitOnP_cons_eq_if_modifyHead, if_neg (by simpa using unbroken)]
  rfl

theorem exists_lines (tokens : List Token) : ∃ line others, lines tokens = line :: others :=
  List.exists_cons_of_ne_nil (List.splitOnP_ne_nil _ tokens)

/-- Tokens without a line break stand at the beginning of the first line. -/
theorem lines_unbroken_append (unbroken : ∀ token ∈ tokens, token.kind ≠ .lineBreak)
    {line : List Token} {others : List (List Token)} (split : lines more = line :: others) :
    lines (tokens ++ more) = (tokens ++ line) :: others := by
  induction tokens with
  | nil => exact split
  | cons token tokens ih =>
      obtain ⟨first, others⟩ := List.forall_mem_cons.mp unbroken
      rw [List.cons_append, lines_cons first, ih others]
      rfl

/-- What begins with a line break, or is empty, adds only lines of its own. -/
theorem lines_append_of_nil {behind : List (List Token)} (split : lines more = [] :: behind)
    (tokens : List Token) :
    lines (tokens ++ more) = lines tokens ++ behind := by
  induction tokens with
  | nil => exact split
  | cons token tokens ih =>
      obtain ⟨line, others, found⟩ := exists_lines tokens
      by_cases broken : token.kind = .lineBreak
      · rw [List.cons_append, lines_cons_of_lineBreak broken, lines_cons_of_lineBreak broken, ih]
        rfl
      · rw [List.cons_append, lines_cons broken, lines_cons broken, ih, found]
        rfl

/-- The first line ends in front of a line break or at the end. -/
theorem exists_of_lines {line : List Token} {others : List (List Token)}
    (split : lines tokens = line :: others) :
    (∀ token ∈ line, token.kind ≠ .lineBreak) ∧
      (others = [] ∧ tokens = line ∨
        ∃ token more, tokens = line ++ token :: more ∧ token.kind = .lineBreak ∧
          lines more = others) := by
  induction tokens generalizing line with
  | nil =>
      cases split
      exact ⟨List.forall_mem_nil _, .inl ⟨rfl, rfl⟩⟩
  | cons token tokens ih =>
      by_cases broken : token.kind = .lineBreak
      · rw [lines_cons_of_lineBreak broken] at split
        obtain ⟨rfl, rfl⟩ := List.cons.inj split
        exact ⟨List.forall_mem_nil _, .inr ⟨token, tokens, rfl, broken, rfl⟩⟩
      · obtain ⟨inner, more, found⟩ := exists_lines tokens
        rw [lines_cons broken, found] at split
        obtain ⟨rfl, rfl⟩ := List.cons.inj split
        obtain ⟨unbroken, rest⟩ := ih found
        refine ⟨List.forall_mem_cons.mpr ⟨broken, unbroken⟩, rest.imp ?_ ?_⟩
        · rintro ⟨rfl, rfl⟩
          exact ⟨rfl, rfl⟩
        · rintro ⟨feed, behind, rfl, kind, same⟩
          exact ⟨feed, behind, rfl, kind, same⟩

theorem beforeClosing_append (unclosed : ∀ token ∈ tokens, token.kind ≠ .closing)
    (more : List Token) :
    beforeClosing (tokens ++ more) = tokens ++ beforeClosing more :=
  List.takeWhile_append_of_pos fun token mem => bne_iff_ne.mpr (unclosed token mem)

/-! ## Faces -/

/-- A line is its core and the padding around it. -/
structure Trims (line front core back : List Token) : Prop where
  whole : line = front ++ (core ++ back)
  front : ∀ token ∈ front, token.kind = .padding
  back : ∀ token ∈ back, token.kind = .padding
  head : ∀ token, core.head? = some token → token.kind ≠ .padding
  last : ∀ token, core.getLast? = some token → token.kind ≠ .padding

theorem Trims.face_eq {line front core back : List Token} (trims : Trims line front core back) :
    face line = core.map erase := by
  have pads {padding : List Token} (soft : ∀ token ∈ padding, token.kind = .padding) :
      ∀ token ∈ padding, (token.kind == Kind.padding) = true :=
        fun token mem => beq_iff_eq.mpr (soft token mem)
  rw [face, trims.whole, List.dropWhile_append_of_pos (pads trims.front)]
  cases core with
  | nil =>
      rw [List.nil_append, List.dropWhile_eq_nil_iff.mpr (pads trims.back)]
      rfl
  | cons first core =>
      have firm : ¬ (first.kind == Kind.padding) = true :=
        fun pads => trims.head first rfl (beq_iff_eq.mp pads)
      have proper : (first :: core).reverse ≠ [] :=
        List.reverse_ne_nil_iff.mpr (List.cons_ne_nil _ _)
      obtain ⟨final, others, split⟩ := List.exists_cons_of_ne_nil proper
      have last : ¬ (final.kind == Kind.padding) = true := fun pads =>
        trims.last final (by rw [List.getLast?_eq_head?_reverse, split]; rfl) (beq_iff_eq.mp pads)
      have stays : (first :: (core ++ back)).dropWhile (fun token => token.kind == .padding) =
          first :: core ++ back := List.dropWhile_cons_of_neg firm
      have stays' : (final :: others).dropWhile (fun token => token.kind == .padding) =
          final :: others :=
        List.dropWhile_cons_of_neg last
      rw [List.cons_append, stays, List.rdropWhile, List.reverse_append,
        List.dropWhile_append_of_pos fun token mem =>
        pads trims.back token (List.mem_reverse.mp mem), split,
        stays', ← split, List.reverse_reverse]

theorem exists_trims (line : List Token) : ∃ front core back, Trims line front core back := by
  obtain ⟨core, back, split, soft, last⟩ :=
    Token.exists_firm (line.dropWhile fun token => token.kind == .padding)
  refine ⟨line.takeWhile fun token => token.kind == .padding, core, back, ?_, ?_, soft, ?_, last⟩
  · rw [← split, List.takeWhile_append_dropWhile]
  · exact fun token mem =>
      beq_iff_eq.mp (List.mem_takeWhile_imp (p := fun token : Token => token.kind == .padding) mem)
  · intro token head pads
    have stops := List.head?_dropWhile_not (fun token : Token => token.kind == .padding) line
    rw [split, List.head?_append, head, Option.some_or] at stops
    dsimp only at stops
    rw [pads] at stops
    cases stops

/-- Padding in front of a line and behind it does not show. -/
theorem face_padded {front back : List Token} (soft : ∀ token ∈ front, token.kind = .padding)
    (soft' : ∀ token ∈ back, token.kind = .padding) (line : List Token) :
    face (front ++ (line ++ back)) = face line := by
  obtain ⟨first, core, final, trims⟩ := exists_trims line
  have padded : Trims (front ++ (line ++ back)) (front ++ first) core (final ++ back) :=
    { whole := by rw [trims.whole]; simp only [List.append_assoc]
      front := List.forall_mem_append.mpr ⟨soft, trims.front⟩
      back := List.forall_mem_append.mpr ⟨trims.back, soft'⟩
      head := trims.head
      last := trims.last }
  rw [padded.face_eq, trims.face_eq]

end Token

/-- A token that may stand within a line is shared by two cursors when one of them is at it. -/
theorem Cursor.Sharing.exists_cons {back back' shared : List Token} {here there : Cursor}
    {kind : Kind} (sharing : Sharing back back' shared here there) (ends : Ends back back')
    (content : kind.isContent = true)
    (stands : here.isAt kind = true) : ∃ first more, shared = first :: more := by
  obtain ⟨padding, soft, rest⟩ := sharing.near
  cases shared with
  | nil =>
      have apart : here.isAt kind = false :=
        isAt_eq_false_of_head? (rest ▸ fun _ => kind_of_head? soft ends.near) content
      rw [apart] at stands
      cases stands
  | cons first more => exact ⟨first, more, rfl⟩

namespace Dialect

open Read Cursor Payload.Grammar

variable {dialect : Dialect} {back back' shared : List Token} {here there : Cursor}

/-! ## Tags that lines begin with -/

/-- The name of the tag at a place, if one stands there. -/
def leadName? (dialect : Dialect) (cursor : Cursor) : Option Text :=
  if cursor.isAt .tag then ((tagName dialect).valueAt cursor).toOption else none

/-- The grammar for the payload of a tag, unless a rule goes first. -/
def grammar? (dialect : Dialect) (name : Text) : Option Subject.Kind :=
  match dialect.rule? name with
  | some _ => none
  | none => Subject.Kind.ofTagName? name

/-- Take the name of a tag and the subject that the grammar for its payload asks for. -/
def nameAndSubject (dialect : Dialect) : Read Unit := do
  let name ← tagName dialect
  match dialect.grammar? name with
  | none => Read.failExpecting .tag
  | some kind => do
      let _ ← subject kind
      return ()

/-- Whether the payload behind a place fits the grammar for the tag that stands there. -/
def fitsGrammar (dialect : Dialect) (cursor : Cursor) : Bool :=
  cursor.isAt .tag && ((nameAndSubject dialect).valueAt cursor).toOption.isSome

/-- The end of a line. -/
def feed : Token :=
  ⟨.lineBreak, ['\n']⟩

/-- The place in front of a line, behind its padding; another line follows. -/
def inFrontOf (line : List Token) : Cursor :=
  Cursor.ofTokens (line ++ [feed])

/-- How many parentheses are open behind a line, with the given number open in front. -/
def depthBehind (dialect : Dialect) (depth : Nat) (line : List Token) : Nat :=
  if depth = 0 ∧ ((inFrontOf line).isAt .tag = false ∨ fitsGrammar dialect (inFrontOf line) = true) then 0
  else openRounds depth line

/-- The names of the tags that lines begin with while no parenthesis is open. -/
def tagNames (dialect : Dialect) : Nat → List (List Token) → List Text
  | _, [] => []
  | depth, line :: lines =>
      (if depth = 0 then (leadName? dialect (inFrontOf line)).toList else []) ++
        tagNames dialect (depthBehind dialect depth line) lines

/-- The two cursors are at the same tag, and its payload fits the grammar for both
or for neither. -/
structure LeadsAlike (dialect : Dialect) (here there : Cursor) : Prop where
  tag : here.isAt .tag = there.isAt .tag
  name : leadName? dialect here = leadName? dialect there
  fits : fitsGrammar dialect here = fitsGrammar dialect there

theorem leadName?_of_tagName {name : Text} {behind : Cursor} (marked : here.isAt .tag = true)
    (named : tagName dialect here = .ok name behind) : leadName? dialect here = some name := by
  rw [leadName?, if_pos marked, Read.valueAt, named]
  rfl

/-- Whether a payload fits is seen behind the name of the tag. -/
theorem fitsGrammar_eq_true_iff {name : Text} {behind : Cursor} (marked : here.isAt .tag = true)
    (named : tagName dialect here = .ok name behind) :
    fitsGrammar dialect here = true ↔
      ∃ kind value after, dialect.grammar? name = some kind ∧
        subject kind behind = .ok value after := by
  rw [fitsGrammar, marked, Bool.true_and, Read.valueAt, nameAndSubject, run_bind_of_ok named]
  cases dialect.grammar? name with
  | none =>
      dsimp only
      constructor
      · rintro ⟨⟩
      · rintro ⟨_, _, _, ⟨⟩, _⟩
  | some kind =>
      dsimp only
      cases taken : subject kind behind with
      | ok value after =>
          rw [run_bind_of_ok taken]
          exact ⟨fun _ => ⟨kind, value, after, rfl, taken⟩, fun _ => rfl⟩
      | error failure after =>
          rw [run_bind_of_error taken]
          constructor
          · rintro ⟨⟩
          · rintro ⟨_, _, _, ⟨⟩, ran⟩
            rw [taken] at ran
            cases ran

section Sharing

variable (ends : Ends back back') (sharing : Sharing back back' shared here there)
include ends sharing

/-- In front of the same tokens of a line the same name is seen. -/
theorem leadName?_of_sharing : leadName? dialect here = leadName? dialect there := by
  have tag := sharing.isAt_eq ends .tag rfl
  cases marked : here.isAt .tag with
  | false =>
      rw [leadName?, leadName?, ← tag, marked, if_neg Bool.false_ne_true, if_neg Bool.false_ne_true]
  | true =>
      obtain ⟨first, more, rfl⟩ := sharing.exists_cons ends rfl marked
      obtain ⟨name, _, behind, behind', named, named', -⟩ := run_tagName_of_sharing ends sharing
      rw [leadName?_of_tagName marked named, leadName?_of_tagName (tag.symm.trans marked) named']

/-- In front of the same tokens of a line, behind which more lines stand, tags are seen alike. -/
theorem leadsAlike_of_sharing (proper : back ≠ []) : LeadsAlike dialect here there := by
  have tag := sharing.isAt_eq ends .tag rfl
  refine ⟨tag, leadName?_of_sharing ends sharing, ?_⟩
  cases marked : here.isAt .tag with
  | false => rw [fitsGrammar, fitsGrammar, ← tag, marked, Bool.false_and, Bool.false_and]
  | true =>
      obtain ⟨first, more, rfl⟩ := sharing.exists_cons ends rfl marked
      obtain ⟨name, _, behind, behind', named, named', abreast⟩ :=
        run_tagName_of_sharing ends sharing
      rw [Bool.eq_iff_iff, fitsGrammar_eq_true_iff marked named,
        fitsGrammar_eq_true_iff (tag.symm.trans marked) named']
      refine exists_congr fun kind => ?_
      have agree := alike_subject ends kind _ behind behind' (Nat.le_refl _) abreast
      generalize near : subject kind behind = result at agree
      generalize far : subject kind behind' = result' at agree
      cases agree with
      | ok => simp
      | error => simp
      | stuck _ _ empty => exact absurd empty proper

end Sharing

/-- Unknown text does not matter. -/
theorem leadsAlike_erase (cursor : Cursor) : LeadsAlike dialect cursor.erase cursor := by
  have tag := cursor.isAt_erase .tag
  cases marked : cursor.isAt .tag with
  | false =>
      rw [marked] at tag
      refine ⟨tag.trans marked.symm, ?_, ?_⟩
      · rw [leadName?, leadName?, marked, tag, if_neg Bool.false_ne_true, if_neg Bool.false_ne_true]
      · rw [fitsGrammar, fitsGrammar, marked, tag, Bool.false_and, Bool.false_and]
  | true =>
      rw [marked] at tag
      have known : cursor.kind? ≠ some .other := by
        rw [beq_iff_eq.mp marked]
        decide
      obtain ⟨name, behind, named, named'⟩ :
          ∃ name behind, tagName dialect cursor = .ok name behind ∧
          tagName dialect cursor.erase = .ok name behind.erase := by
        rw [run_tagName_eq, run_tagName_eq, step_erase, isAt_erase, cursor.text_erase known]
        cases glued : cursor.step.isAt .name with
        | false => exact ⟨_, _, rfl, by rw [skipPadding_erase]; rfl⟩
        | true =>
            rw [cursor.step.text_erase (by rw [beq_iff_eq.mp glued]; decide), Bool.true_and]
            split
            next => exact ⟨_, _, rfl, by rw [advance_erase]⟩
            next => exact ⟨_, _, rfl, by rw [skipPadding_erase]⟩
      refine ⟨tag.trans marked.symm, ?_, ?_⟩
      · rw [leadName?_of_tagName marked named, leadName?_of_tagName tag named']
      · rw [Bool.eq_iff_iff, fitsGrammar_eq_true_iff marked named,
          fitsGrammar_eq_true_iff tag named']
        refine exists_congr fun kind => ?_
        have erased := erases_subject kind behind
        rw [Erases] at erased
        generalize near : subject kind behind = result at erased
        generalize far : subject kind behind.erase = result' at erased
        cases erased <;> simp

/-! ## Faces -/

theorem endLine_feed : EndLine [feed] := by
  rintro token ⟨⟩
  exact .inl rfl

/-- In front of a line stands its core. -/
theorem rest_inFrontOf {line front core final : List Token} (trims : Trims line front core final)
    (soft : ArePadding final) :
    ∃ padding, ArePadding padding ∧ (inFrontOf line).rest = core ++ (padding ++ [feed]) := by
  have skipped : (inFrontOf line).rest = (line ++ [feed]).dropWhile fun token =>
    token.kind == .padding := rfl
  rw [skipped, trims.whole, List.append_assoc, List.append_assoc,
    List.dropWhile_append_of_pos fun token mem => beq_iff_eq.mpr (trims.front token mem)]
  cases core with
  | nil => exact ⟨[], List.forall_mem_nil _, dropWhile_padding soft endLine_feed⟩
  | cons first core =>
      exact ⟨final, soft, List.dropWhile_cons_of_neg fun pads =>
        trims.head first rfl (beq_iff_eq.mp pads)⟩

/-- At a place in front of a line tags are seen as in front of the line by itself. -/
theorem leadsAlike_inFrontOf {line front core final padding : List Token}
    (trims : Trims line front core final)
    (soft : ArePadding final) (soft' : ArePadding padding) (ends : EndLine back)
    (proper : back ≠ []) (stands : here.rest = core ++ (padding ++ back)) :
    LeadsAlike dialect here (inFrontOf line) := by
  have sharing : Sharing back [feed] core here (inFrontOf line) :=
    ⟨⟨padding, soft', stands⟩, rest_inFrontOf trims soft, trims.last⟩
  exact leadsAlike_of_sharing ⟨ends, endLine_feed, List.cons_ne_nil _ _⟩ sharing proper

/-- A line and its face begin with the same tag. -/
theorem leadsAlike_face {line : List Token} (pieces : ArePieces line) :
    LeadsAlike dialect (inFrontOf (face line)) (inFrontOf line) := by
  obtain ⟨front, core, final, trims⟩ := exists_trims line
  have soft : ArePadding final :=
    pieces.arePadding (fun token mem => by rw [trims.whole]; simp [mem]) trims.back
  have alone : Trims core [] core [] :=
    ⟨(List.append_nil core).symm, List.forall_mem_nil _, List.forall_mem_nil _,
      trims.head, trims.last⟩
  obtain ⟨padding, soft', rest⟩ := @rest_inFrontOf core [] core [] alone (List.forall_mem_nil _)
  have bare : LeadsAlike dialect (inFrontOf core) (inFrontOf line) :=
    leadsAlike_inFrontOf trims soft soft' endLine_feed (List.cons_ne_nil _ _) rest
  have erased : inFrontOf (face line) = (inFrontOf core).erase := by
    have whole : core.map Token.erase ++ [feed] = (core ++ [feed]).map Token.erase := by
      rw [List.map_append]
      rfl
    rw [trims.face_eq, inFrontOf, whole]
    exact (⟨[], core ++ [feed]⟩ : Cursor).skipPadding_erase
  have blind := @leadsAlike_erase dialect (inFrontOf core)
  rw [erased]
  exact ⟨blind.tag.trans bare.tag, blind.name.trans bare.name, blind.fits.trans bare.fits⟩

theorem openRounds_map_erase (depth : Nat) (tokens : List Token) :
    openRounds depth (tokens.map erase) = openRounds depth tokens := by
  simp [openRounds, List.foldl_map]

theorem openRounds_of_flat (depth : Nat) {tokens : List Token}
    (flat : ∀ token ∈ tokens, token.kind ≠ .roundOpen ∧ token.kind ≠ .roundClose) :
    openRounds depth tokens = depth := by
  induction tokens with
  | nil => rfl
  | cons token tokens ih =>
      obtain ⟨first, others⟩ := List.forall_mem_cons.mp flat
      have same : roundsBehind depth token.kind = depth := by
        unfold roundsBehind
        split
        next opens => exact absurd opens first.1
        next closes => exact absurd closes first.2
        next => rfl
      have step : openRounds depth (token :: tokens) =
        openRounds (roundsBehind depth token.kind) tokens := rfl
      rw [step, same, ih others]

theorem openRounds_face (depth : Nat) (line : List Token) :
    openRounds depth (face line) = openRounds depth line := by
  obtain ⟨front, core, final, trims⟩ := exists_trims line
  have flat {padding : List Token} (soft : ∀ token ∈ padding, token.kind = .padding) :
      ∀ token ∈ padding, token.kind ≠ .roundOpen ∧ token.kind ≠ .roundClose := fun token mem => by
    rw [soft token mem]
    decide
  rw [trims.face_eq, openRounds_map_erase, trims.whole, openRounds_append, openRounds_append,
    openRounds_of_flat _ (flat trims.front), openRounds_of_flat _ (flat trims.back)]

theorem tagNames_map_face (depth : Nat) {lines : List (List Token)}
    (pieces : ∀ line ∈ lines, ArePieces line) :
    tagNames dialect depth (lines.map face) = tagNames dialect depth lines := by
  induction lines generalizing depth with
  | nil => rfl
  | cons line lines ih =>
      obtain ⟨first, others⟩ := List.forall_mem_cons.mp pieces
      have alike := @leadsAlike_face dialect line first
      have behind : depthBehind dialect depth (face line) = depthBehind dialect depth line := by
        rw [depthBehind, depthBehind, alike.tag, alike.fits, openRounds_face]
      rw [List.map_cons, tagNames, tagNames, alike.name, behind, ih _ others]

/-- Lines with the same faces have the same tags. -/
theorem tagNames_eq_of_faces {lines lines' : List (List Token)}
    (pieces : ∀ line ∈ lines, ArePieces line)
    (pieces' : ∀ line ∈ lines', ArePieces line) (same : lines.map face = lines'.map face)
    (depth : Nat) :
    tagNames dialect depth lines = tagNames dialect depth lines' := by
  rw [← tagNames_map_face depth pieces, same, tagNames_map_face depth pieces']

end Dialect

end DocComment
