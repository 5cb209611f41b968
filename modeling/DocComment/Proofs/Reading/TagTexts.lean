import DocComment.Proofs.Reading.TagLines
import DocComment.Proofs.Token.LineEnds

/-!
# The tags of a text

What the lines of a text say about tags stays the same when padding is put at the end
of a line, when a line feed gets or loses its carriage return, and when the lines
behind are exchanged for others that say the same (`namesIn_eq_of_cut`).
-/

namespace DocComment

open Token

namespace Token

variable {tokens more : List Token} {token : Token}

theorem erase_erase (token : Token) : token.erase.erase = token.erase := by
  by_cases unknown : token.kind = .other
  · rw [show token.erase = ⟨.other, []⟩ from if_pos unknown]
    rfl
  · rw [erase_of_known unknown, erase_of_known unknown]

/-- The text of unknown tokens does not show. -/
theorem face_map_erase (line : List Token) : face (line.map erase) = face line := by
  obtain ⟨front, core, back, trims⟩ := exists_trims line
  have soft {padding : List Token} (all : ∀ token ∈ padding, token.kind = .padding) :
      ∀ token ∈ padding.map erase, token.kind = .padding := fun token mem => by
    obtain ⟨original, within, rfl⟩ := List.mem_map.mp mem
    rw [kind_erase, all original within]
  have erased : Trims (line.map erase) (front.map erase) (core.map erase) (back.map erase) :=
    { whole := by rw [trims.whole, List.map_append, List.map_append]
      front := soft trims.front
      back := soft trims.back
      head := fun token head => by
        rw [List.head?_map] at head
        obtain ⟨original, first, rfl⟩ := Option.map_eq_some_iff.mp head
        rw [kind_erase]
        exact trims.head original first
      last := fun token last => by
        rw [List.getLast?_map] at last
        obtain ⟨original, final, rfl⟩ := Option.map_eq_some_iff.mp last
        rw [kind_erase]
        exact trims.last original final }
  rw [erased.face_eq, trims.face_eq, List.map_map]
  exact List.map_congr_left fun token _ => token.erase_erase

/-- Tokens without a line break stand at the end of the last line. -/
theorem exists_lines_append (tokens : List Token) :
    ∃ front line, lines tokens = front ++ [line] ∧ ∀ more : List Token,
      (∀ token ∈ more, token.kind ≠ .lineBreak) →
        lines (tokens ++ more) = front ++ [line ++ more] := by
  induction tokens with
  | nil => exact ⟨[], [], lines_nil, fun _ => lines_of_unbroken⟩
  | cons token tokens ih =>
      obtain ⟨front, line, split, longer⟩ := ih
      by_cases broken : token.kind = .lineBreak
      · refine ⟨[] :: front, line, ?_, fun more unbroken => ?_⟩
        · rw [lines_cons_of_lineBreak broken, split]
          rfl
        · rw [List.cons_append, lines_cons_of_lineBreak broken, longer more unbroken]
          rfl
      · cases front with
        | nil =>
            refine ⟨[], token :: line, ?_, fun more unbroken => ?_⟩
            · rw [lines_cons broken, split]
              rfl
            · rw [List.cons_append, lines_cons broken, longer more unbroken]
              rfl
        | cons first front =>
            refine ⟨(token :: first) :: front, line, ?_, fun more unbroken => ?_⟩
            · rw [lines_cons broken, split]
              rfl
            · rw [List.cons_append, lines_cons broken, longer more unbroken]
              rfl

theorem mem_of_mem_lines {line : List Token} (mem : line ∈ lines tokens) :
    ∀ token ∈ line, token ∈ tokens := by
  induction tokens generalizing line with
  | nil =>
      rw [lines_nil, List.mem_singleton] at mem
      rw [mem]
      exact List.forall_mem_nil _
  | cons first tokens ih =>
      by_cases broken : first.kind = .lineBreak
      · rw [lines_cons_of_lineBreak broken] at mem
        rcases List.mem_cons.mp mem with rfl | mem
        · exact List.forall_mem_nil _
        · exact fun token inside => List.mem_cons_of_mem _ (ih mem token inside)
      · obtain ⟨head, others, split⟩ := exists_lines tokens
        rw [lines_cons broken, split] at mem
        rw [split] at ih
        rcases List.mem_cons.mp mem with rfl | mem
        · refine List.forall_mem_cons.mpr ⟨List.mem_cons_self, fun token inside => ?_⟩
          exact List.mem_cons_of_mem _ (ih List.mem_cons_self token inside)
        · exact fun token inside =>
            List.mem_cons_of_mem _ (ih (List.mem_cons_of_mem _ mem) token inside)

/-- Lines that differ in their last tokens only look alike. -/
theorem SameButLast.map_face_lines {tokens' : List Token} (same : SameButLast tokens tokens') :
    (lines tokens).map face = (lines tokens').map face := by
  obtain ⟨core, last, last', rfl, rfl, alike⟩ := same
  obtain ⟨front, line, split, longer⟩ := exists_lines_append core
  cases alike with
  | padding soft soft' =>
      have bare {last : List Token} (soft : ∀ token ∈ last, token.kind = .padding) :
          (lines (core ++ last)).map face = (lines core).map face := by
        have unbroken : ∀ token ∈ last, token.kind ≠ .lineBreak := fun token mem => by
          rw [soft token mem]
          decide
        rw [split, longer last unbroken, List.map_append, List.map_append, List.map_singleton,
          List.map_singleton, ← @face_padded [] last (List.forall_mem_nil _) soft line]
        rfl
      rw [bare soft, bare soft']
  | other text text' =>
      have unbroken (text : Text) : ∀ token ∈ [(⟨.other, text⟩ : Token)], token.kind ≠ .lineBreak :=
        List.forall_mem_singleton.mpr nofun
      have erased (text : Text) :
          face (line ++ [(⟨.other, text⟩ : Token)]) = face (line.map erase ++ [⟨.other, []⟩]) := by
        rw [← face_map_erase, List.map_append]
        rfl
      rw [longer _ (unbroken text), longer _ (unbroken text'), List.map_append, List.map_append,
        List.map_singleton, List.map_singleton, erased, erased]
  | lineBreak text text' => rw [lines_append rfl, lines_append rfl]

theorem EndsAlike.unclosed {last last' : List Token} (alike : EndsAlike last last') :
    (∀ token ∈ last, token.kind ≠ .closing) ∧ ∀ token ∈ last', token.kind ≠ .closing := by
  cases alike with
  | padding soft soft' =>
      constructor
      · intro token mem
        rw [soft token mem]
        decide
      · intro token mem
        rw [soft' token mem]
        decide
  | other | lineBreak =>
    exact ⟨List.forall_mem_singleton.mpr nofun, List.forall_mem_singleton.mpr nofun⟩

theorem SameButLast.unclosed {tokens' : List Token} (same : SameButLast tokens tokens')
    (unclosed : ∀ token ∈ tokens, token.kind ≠ .closing) :
    ∀ token ∈ tokens', token.kind ≠ .closing := by
  obtain ⟨core, last, last', rfl, rfl, alike⟩ := same
  exact List.forall_mem_append.mpr ⟨(List.forall_mem_append.mp unclosed).1, alike.unclosed.2⟩

/-- Behind a closing marker nothing matters. -/
theorem beforeClosing_append_of_closed (closed : ∃ token ∈ tokens, token.kind = .closing)
    (more : List Token) :
    beforeClosing (tokens ++ more) = beforeClosing tokens := by
  induction tokens with
  | nil =>
      obtain ⟨_, mem, -⟩ := closed
      cases mem
  | cons token tokens ih =>
      rw [List.cons_append, beforeClosing, beforeClosing, List.takeWhile_cons, List.takeWhile_cons]
      split
      next goesOn =>
        refine congrArg _ (ih ?_)
        obtain ⟨other, mem, kind⟩ := closed
        rcases List.mem_cons.mp mem with rfl | mem
        · exact absurd kind (bne_iff_ne.mp goesOn)
        · exact ⟨other, mem, kind⟩
      next => rfl

end Token

namespace Dialect

variable {dialect : Dialect} {tokens tokens' : List Token} {text text' : Text}

/-- The names of the tags that the lines of a text begin with, up to its closing marker. -/
def namesIn (dialect : Dialect) (depth : Nat) (text : Text) : List Text :=
  tagNames dialect depth (lines (beforeClosing (scan text)))

/-- Whatever is open in front of them, two texts have the same tags. -/
def TagsAlike (dialect : Dialect) (text text' : Text) : Prop :=
  ∀ depth, namesIn dialect depth text = namesIn dialect depth text'

theorem tagNames_append_congr {others others' : List (List Token)}
    (same : ∀ depth, tagNames dialect depth others = tagNames dialect depth others')
    (lines : List (List Token)) (depth : Nat) :
    tagNames dialect depth (lines ++ others) = tagNames dialect depth (lines ++ others') := by
  induction lines generalizing depth with
  | nil => exact same depth
  | cons line lines ih => rw [List.cons_append, List.cons_append, tagNames, tagNames, ih]

theorem tagNames_of_sameButLast (pieces : ArePieces tokens) (pieces' : ArePieces tokens')
    (same : SameButLast tokens tokens') {others : List (List Token)}
    (further : ∀ line ∈ others, ArePieces line) (depth : Nat) :
    tagNames dialect depth (lines tokens ++ others) =
      tagNames dialect depth (lines tokens' ++ others) := by
  have all {tokens : List Token} (pieces : ArePieces tokens) :
      ∀ line ∈ lines tokens ++ others, ArePieces line :=
    List.forall_mem_append.mpr
      ⟨fun line mem token inside => pieces token (mem_of_mem_lines mem token inside), further⟩
  refine tagNames_eq_of_faces (all pieces) (all pieces') ?_ depth
  rw [List.map_append, List.map_append, same.map_face_lines]

theorem arePieces_of_mem_lines {line : List Token}
    (mem : line ∈ lines (beforeClosing (scan text))) : ArePieces line :=
  fun token inside =>
    arePieces_scan text token ((List.takeWhile_sublist _).mem (mem_of_mem_lines mem token inside))

/-- Lines up to a line break, and what stands behind it. -/
theorem namesIn_of_lines {taken rest : Text}
    (whole : scan text = tokens ++ ⟨.lineBreak, taken⟩ :: scan rest)
    (depth : Nat) :
    namesIn dialect depth text =
      if ∀ token ∈ tokens, token.kind ≠ .closing then
        tagNames dialect depth (lines tokens ++ lines (beforeClosing (scan rest)))
      else tagNames dialect depth (lines (beforeClosing tokens)) := by
  rw [namesIn, whole]
  split
  next unclosed =>
    rw [beforeClosing_append unclosed, beforeClosing, List.takeWhile_cons_of_pos (by rfl),
      lines_append rfl]
    rfl
  next closed =>
    have closed : ∃ token ∈ tokens, token.kind = .closing := by
      simpa using closed
    rw [beforeClosing_append_of_closed closed]

theorem tagsAlike_of_sameButLast {taken taken' rest rest' : Text}
    (whole : scan text = tokens ++ ⟨.lineBreak, taken⟩ :: scan rest)
    (whole' : scan text' = tokens' ++ ⟨.lineBreak, taken'⟩ :: scan rest')
    (same : SameButLast tokens tokens')
    (later : TagsAlike dialect rest rest') : TagsAlike dialect text text' := by
  intro depth
  have pieces {text taken rest : Text} {tokens : List Token}
      (whole : scan text = tokens ++ ⟨.lineBreak, taken⟩ :: scan rest) : ArePieces tokens :=
    fun token mem => arePieces_scan text token (whole ▸ List.mem_append_left _ mem)
  obtain ⟨core, last, last', rfl, rfl, alike⟩ := same
  obtain ⟨unclosed, unclosed'⟩ := alike.unclosed
  rw [namesIn_of_lines whole, namesIn_of_lines whole']
  by_cases open? : ∀ token ∈ core, token.kind ≠ .closing
  · rw [if_pos (List.forall_mem_append.mpr ⟨open?, unclosed⟩),
      if_pos (List.forall_mem_append.mpr ⟨open?, unclosed'⟩), tagNames_append_congr later]
    exact tagNames_of_sameButLast (pieces whole) (pieces whole')
      ⟨core, last, last', rfl, rfl, alike⟩
      (fun line mem => arePieces_of_mem_lines mem) depth
  · have closed : ∃ token ∈ core, token.kind = .closing := by
      simpa using open?
    rw [if_neg fun all => open? (List.forall_mem_append.mp all).1,
      if_neg fun all => open? (List.forall_mem_append.mp all).1,
      beforeClosing_append_of_closed closed, beforeClosing_append_of_closed closed]

section Ending

variable {front padding feed feed' rest rest' : Text} (isFeed : IsFeed feed)
  (isFeed' : IsFeed feed')
  (pads : ∀ c ∈ padding, isPadding c = true)
  (cut : scan (front ++ (feed ++ rest)) = tokens ++ scan (feed ++ rest)) (covers : textOf tokens = front)
  (lone : front.getLast? = some '\r' → feed = ['\n'])
include isFeed isFeed' pads cut covers lone

/-- With another end of its last line, and other lines behind, a text has the tags
of its lines and of those behind. -/
theorem namesIn_of_cut (unclosed : ∀ token ∈ tokens, token.kind ≠ .closing) (depth : Nat) :
    namesIn dialect depth (front ++ (padding ++ (feed' ++ rest'))) =
      tagNames dialect depth
        (lines tokens ++ lines (beforeClosing (scan (rest'.drop (decorationLength rest'))))) := by
  obtain ⟨tokens', taken, whole, same⟩ :=
    exists_scan_of_cut isFeed isFeed' pads cut covers lone rest'
  have pieces : ArePieces tokens :=
    fun token mem => arePieces_scan _ token (cut ▸ List.mem_append_left _ mem)
  have pieces' : ArePieces tokens' :=
    fun token mem => arePieces_scan _ token (whole ▸ List.mem_append_left _ mem)
  rw [namesIn_of_lines whole, if_pos (same.unclosed unclosed),
    tagNames_of_sameButLast pieces pieces' same fun line mem => arePieces_of_mem_lines mem]

/-- The end of a line does not matter, and lines behind it may be exchanged for
others that have the same tags. -/
theorem tagsAlike_of_cut
    (later : TagsAlike dialect (rest.drop (decorationLength rest))
      (rest'.drop (decorationLength rest'))) :
    TagsAlike dialect (front ++ (feed ++ rest)) (front ++ (padding ++ (feed' ++ rest'))) := by
  obtain ⟨tokens', taken, whole', same⟩ :=
    exists_scan_of_cut isFeed isFeed' pads cut covers lone rest'
  obtain ⟨taken', broken⟩ := scan_feed_append isFeed rest
  rw [broken] at cut
  exact tagsAlike_of_sameButLast cut whole' same later

end Ending

end Dialect

end DocComment
