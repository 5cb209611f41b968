import DocComment.Proofs.Editing
import DocComment.Proofs.Reading.Calls

/-!
# Arguments that are set

The tag of an annotation stands for its whole payload, while the annotation is
the call in front of it.  So the text behind the call is kept as long as the
annotation stays as it was, and goes with the old call when it changes.
-/

namespace DocComment

open Token

namespace Text

/-- No word is made of blanks. -/
theorem IsBlack.not_infix_of_isAllBlank {word text : Text} (black : word.IsBlack)
    (blank : text.isAllBlank = true) :
    ¬ word <:+: text := by
  intro inside
  obtain ⟨c, mem⟩ := List.exists_mem_of_ne_nil word black.1
  have white : isBlank c = true := List.all_eq_true.mp blank c (inside.subset mem)
  rw [black.2 c mem] at white
  cases white

/-- A word at a place where blanks follow stands in front of them. -/
theorem IsBlack.infix_of_append_blank {word front blanks : Text} (black : word.IsBlack)
    (blank : ∀ c ∈ blanks, isBlank c = true) (inside : word <:+: front ++ blanks) :
    word <:+: front := by
  cases blanks with
  | nil => rwa [List.append_nil] at inside
  | cons c blanks =>
      rcases black.infix_of_append (blank c List.mem_cons_self) inside with held | later
      · exact held
      · have rest : isAllBlank blanks = true :=
          List.all_eq_true.mpr fun d mem => blank d (List.mem_cons_of_mem c mem)
        exact absurd later (black.not_infix_of_isAllBlank rest)

/-- A character in a text with blanks behind it stands in front of them, unless it is one. -/
theorem exists_of_append_blank {text front back blanks : Text} {c : Char}
    (black : isBlank c = false)
    (blank : ∀ d ∈ blanks, isBlank d = true) (same : front ++ c :: back = text ++ blanks) :
    ∃ inner, text = front ++ c :: inner ∧ back = inner ++ blanks := by
  have outside : c ∉ blanks := fun mem => by
    rw [blank c mem] at black
    cases black
  rcases List.append_eq_append_iff.mp same with ⟨more, rfl, later⟩ | ⟨more, rfl, later⟩
  · cases more with
    | nil =>
        rw [List.nil_append] at later
        exact absurd (later ▸ List.mem_cons_self) outside
    | cons d inner =>
        obtain ⟨rfl, rfl⟩ := List.cons.inj later
        exact ⟨inner, rfl, rfl⟩
  · exact absurd (later ▸ List.mem_append_right more List.mem_cons_self) outside

/-- Every word of a text behind a call stands in the other text too, behind a
closing parenthesis. -/
def KeepsBehind (text behind : Text) : Prop :=
  ∀ word : Text, word.IsBlack → word <:+: behind → ∃ front back, text = front ++ ')' :: back ∧ word <:+: back

variable {text behind : Text}

theorem keepsBehind_of_isAllBlank (blank : behind.isAllBlank = true) : text.KeepsBehind behind :=
  fun _ black inside => absurd inside (black.not_infix_of_isAllBlank blank)

/-- A text keeps what a part of it keeps. -/
theorem KeepsBehind.of_infix {part : Text} (keeps : part.KeepsBehind behind)
    (inside : part <:+: text) :
    text.KeepsBehind behind := by
  obtain ⟨first, last, rfl⟩ := inside
  intro word black held
  obtain ⟨front, back, rfl, found⟩ := keeps word black held
  exact ⟨first ++ front, back ++ last, by simp, found.trans (List.prefix_append back last).isInfix⟩

end Text

namespace Annotation

/-- What stands behind a call in its text stands behind a closing parenthesis. -/
theorem exists_of_behind {naming : Naming} {call : Annotation} {name payload : Text}
    (read : ofPayload naming name payload = .ok (some call)) (raw : call.raw = payload)
    (full : call.behind naming ≠ []) :
    ∃ front padding, payload = front ++ ')' :: (padding ++ call.behind naming) := by
  unfold ofPayload Read.valueAt at read
  split at read
  next found after run =>
    cases read
    have left := behind_eq run raw
    rw [left] at full ⊢
    rcases (Grammar.payloadCall_eq_ok run).2 with ⟨ended, -, -, rfl⟩ | ⟨-, -, -, closes⟩
    · rw [Cursor.kind?, Option.map_eq_none_iff, List.head?_eq_none_iff] at ended
      rw [ended] at full
      exact absurd rfl full
    · exact closes.exists_eq
  next => cases read

end Annotation

namespace Dialect

variable {dialect : Dialect} {text : Text} {document : Document} {place : Nat} {tag : Tag}
  {call : Annotation}
  {span : Span}

theorem kind?_of_tagName {before middle : Cursor} {name : Text}
    (named : tagName dialect before = .ok name middle) : middle.kind? ≠ some .padding := by
  rw [run_tagName_eq] at named
  split at named
  · cases named
    exact Cursor.kind?_skipPadding_ne _
  · cases named
    exact Cursor.kind?_skipPadding_ne _

/-- An annotation holds the whole payload that it was read from. -/
theorem raw_eq_written {middle : Cursor} {name : Text} (tokens : middle.tokens = scan text)
    (firm : middle.kind? ≠ some .padding)
    (read : Annotation.ofPayload dialect.naming name (written middle) = .ok (some call)) :
    call.raw = written middle := by
  obtain ⟨padding, lineBreak⟩ := firstKind?_written tokens firm
  unfold Annotation.ofPayload Read.valueAt at read
  split at read
  next run =>
    cases read
    exact Annotation.raw_eq run (List.rdropWhile_idempotent isBlank _) padding lineBreak
  next => cases read

/-- The stretch of a tag holds the parenthesis that closes its call, and behind it
what the call leaves. -/
theorem keepsBehind_of_entry (verbatim : dialect.OnlyVerbatim) {before after : Cursor}
    (tokens : before.tokens = scan text) (run : entry dialect before = .ok (.tag tag) after)
    (annotated : tag.payload = .call call) (span? : tag.span = some span) :
    (span.textIn (scan text)).KeepsBehind (call.behind dialect.naming) := by
  intro word black inside
  obtain ⟨middle, name, marked, named, read, rfl⟩ := ofPayload_of_tag verbatim run annotated
  obtain ⟨shared, padding, covers⟩ := covers_of_entry verbatim run
  have crossed := crosses_of_tagName marked named
  obtain ⟨head, split, -⟩ := crossed.exists_crossed
  have source : middle.tokens = scan text := crossed.tokens.trans tokens
  have raw := raw_eq_written source (kind?_of_tagName named) read
  obtain ⟨front, pad, whole⟩ := Annotation.exists_of_behind read raw fun empty => by
    rw [empty] at inside
    exact black.1 (List.infix_nil.mp inside)
  -- The tag is its name and its payload, without the padding at their end.
  have taken : textOf head ++
      textOf (middle.rest.take (Payload.Grammar.plainLength 0 middle.rest)) =
      textOf shared ++ textOf padding := by
    have stands := covers.rest
    rw [split, ← List.take_append_drop (Payload.Grammar.plainLength 0 middle.rest) middle.rest,
      ← List.append_assoc, ← List.append_assoc] at stands
    rw [← textOf_append, ← textOf_append, List.append_cancel_right stands]
  obtain ⟨tail, trimmed⟩ := Text.trimEnd_isPrefix
    (Payload.Grammar.undecorated false
      (middle.rest.take (Payload.Grammar.plainLength 0 middle.rest)))
  rw [← written, whole, List.append_assoc, List.cons_append, List.append_assoc] at trimmed
  obtain ⟨lead, later, same, words⟩ :=
    Payload.Grammar.exists_of_undecorated (by decide) trimmed.symm
  have held := words word black (inside.trans (List.infix_append' pad _ tail))
  rw [same, ← List.append_assoc] at taken
  have blank : ∀ c ∈ textOf padding, isBlank c = true := by
    intro c mem
    obtain ⟨token, stands, mem⟩ := List.mem_flatMap.mp mem
    exact isBlank_of_isPadding ((covers.arePadding tokens token stands).2 c mem)
  obtain ⟨inner, whole', rfl⟩ := Text.exists_of_append_blank (by decide) blank taken
  rw [← tokens, covers.textIn_eq span?]
  exact ⟨_, inner, whole', black.infix_of_append_blank blank held⟩

/-! ## Setting an argument -/

/-- A call with parentheses is written with a character that is no blank. -/
theorem trimStart_render (parenthesised : call.parenthesised = true) :
    Text.trimStart call.render ≠ [] := by
  have opens : '(' ∈ call.render := by
    obtain ⟨name, writtenName, raw, arguments, silentKey, _⟩ := call
    cases parenthesised
    change '(' ∈ writtenName.getD [] ++ '(' :: (_ ++ [')'])
    simp
  intro empty
  have blank := List.dropWhile_eq_nil_iff.mp empty '(' opens
  revert blank
  decide

/-- The tag of a call is written as its name, what separates it, and the call. -/
theorem renderChanged_call (annotated : tag.payload = .call call)
    (parenthesised : call.parenthesised = true) :
    tag.renderChanged text = tag.name ++ Separator.ofTag text tag ++
      Text.trimStart call.render := by
  have wordless (rendered : Text) : tag.restoreWording rendered = rendered := by
    unfold Tag.restoreWording
    rw [annotated]
    cases tag.wording <;> rfl
  have render : Text.trimStart tag.payload.render = Text.trimStart call.render := by
    rw [annotated]
    rfl
  unfold Tag.renderChanged
  split
  next empty => exact absurd (render.symm.trans empty) (trimStart_render parenthesised)
  next payload => rw [wordless, render]

/--
A text behind a call is kept when an argument is set, unless the call changes: then
the tag is written as its name and the new call, and the text is dropped with
the old one.
-/
theorem keepsBehind_of_set (verbatim : dialect.OnlyVerbatim) (run : dialect.read text = .ok document)
    (stands : document.comment.entry? place = some (.tag tag)) (annotated : tag.payload = .call call) (key : Text)
    (value : ArgumentValue) :
    ∃ span comment output, tag.span = some span ∧
      document.comment.changeTag? place (Tag.changePayload? (Payload.withArgument? key value)) = some comment ∧
      (document.withComment comment).render = .ok output ∧
      (span.textIn document.tokens).KeepsBehind (call.behind dialect.naming) ∧
      (call.set key value = call ∨ (call.behind dialect.naming).isAllBlank = true →
        output.KeepsBehind (call.behind dialect.naming)) ∧
      (call.set key value = call → output = Cleanup.completeMarkers text) ∧
      (call.set key value ≠ call → output = Cleanup.finish true false
        (textOf (document.tokens.take span.start) ++
          (decorate (tag.name ++ Separator.ofTag text (tag.withPayload (.call (call.set key value))) ++
              Text.trimStart (call.set key value).render) ++
            textOf (document.tokens.drop span.stop)))) := by
  obtain ⟨before, after, tokens, -, taken⟩ := exists_entry_of_read verbatim run _ (List.mem_of_getElem? stands)
  obtain ⟨shared, padding, covers⟩ := covers_of_entry verbatim taken
  have span? : tag.span = some _ := covers.span?
  have kept := keepsBehind_of_entry verbatim tokens taken annotated span?
  have change : tag.changePayload? (Payload.withArgument? key value) =
      some (tag.withPayload (.call (call.set key value))) := by
    rw [Tag.changePayload?, annotated]
    rfl
  obtain ⟨comment, changed, same⟩ := Document.changeTag?_eq stands change
  rw [tokens_of_read run]
  by_cases settled : call.set key value = call
  · have self : tag.withPayload (.call (call.set key value)) = tag := by
      rw [settled, ← annotated]
      rfl
    rw [self, Document.withTag_self stands] at same
    obtain ⟨opens, rendered⟩ := render_of_read_eq verbatim.movesForward run
    rw [← same] at rendered
    refine ⟨_, comment, _, span?, changed, rendered, kept, fun _ => ?_, fun _ => rfl, fun other => absurd settled other⟩
    have inside := textBetween_isInfix_textOf (scan text) (Span.between before.index (before.index + shared.length)).start
      (Span.between before.index (before.index + shared.length)).stop
    rw [textOf_scan] at inside
    exact kept.of_infix (inside.trans (Cleanup.prefix_completeMarkers opens).isInfix)
  · have differs : tag.withPayload (.call (call.set key value)) ≠ tag := by
      intro self
      have payload := congrArg Tag.payload self
      rw [annotated] at payload
      exact settled (Payload.call.inj payload)
    have new? : (tag.withPayload (.call (call.set key value))).span = some _ := span?
    obtain ⟨revision, rendered⟩ := Document.render_withTag verbatim run stands span? new? differs (by rintro ⟨⟩)
    have parenthesised : (call.set key value).parenthesised = true := rfl
    rw [renderChanged_call rfl parenthesised] at revision
    rw [← same] at rendered revision
    refine ⟨_, comment, _, span?, changed, rendered, kept, fun blank => ?_, fun same => absurd same settled, fun _ => ?_⟩
    · exact Text.keepsBehind_of_isAllBlank (blank.resolve_left settled)
    · rw [revision]
      rfl

/-- An argument is set to the value that it has, in front of a word. -/
theorem keepsBehind_of_set_same :
    let dialect : Dialect := ⟨[], ⟨.constant ['X'], ⟨none, []⟩, .empty⟩⟩
    let call : Annotation := ⟨['X'], none, "(x=1) hello".toList, [⟨['x'], .literal ['1'], false⟩], none, true⟩
    let tag : Tag := ⟨"@A".toList, .call call, some ⟨3, 8⟩, none⟩
    ∃ document, dialect.OnlyVerbatim ∧ dialect.read "/**\n * @A(x=1) hello\n */".toList = .ok document ∧
      document.comment.entry? 0 = some (.tag tag) ∧ tag.payload = .call call ∧
        call.behind dialect.naming = "hello".toList ∧
          ∃ comment output, document.comment.changeTag? 0
              (Tag.changePayload? (Payload.withArgument? ['x'] (.literal ['1']))) = some comment ∧
            (document.withComment comment).render = .ok output ∧ output.KeepsBehind "hello".toList := by
  intro dialect call tag
  have verbatim : dialect.OnlyVerbatim := fun _ mem => absurd mem List.not_mem_nil
  have run : dialect.read "/**\n * @A(x=1) hello\n */".toList =
      .ok (.ofComment (.ofEntries [.tag tag]) (scan "/**\n * @A(x=1) hello\n */".toList)) := rfl
  have stands : Comment.entry? (.ofEntries [.tag tag]) 0 = some (.tag tag) := rfl
  have behind : call.behind dialect.naming = "hello".toList := rfl
  obtain ⟨span, comment, output, -, changed, rendered, -, keeps, -⟩ :=
    keepsBehind_of_set verbatim run stands rfl ['x'] (.literal ['1'])
  have kept := keeps (.inl rfl)
  rw [behind] at kept
  exact ⟨_, verbatim, run, stands, rfl, behind, comment, output, changed, rendered, kept⟩

/-- An argument is set to another value, and the word behind the call is gone. -/
theorem not_keepsBehind_of_set :
    let dialect : Dialect := ⟨[], ⟨.constant ['X'], ⟨none, []⟩, .empty⟩⟩
    let call : Annotation := ⟨['X'], none, "(x=1) hello".toList, [⟨['x'], .literal ['1'], false⟩], none, true⟩
    let tag : Tag := ⟨"@A".toList, .call call, some ⟨3, 8⟩, none⟩
    ∃ document comment output, dialect.OnlyVerbatim ∧
      dialect.read "/**\n * @A(x=1) hello\n */".toList = .ok document ∧
        document.comment.entry? 0 = some (.tag tag) ∧ tag.payload = .call call ∧
          document.comment.changeTag? 0
              (Tag.changePayload? (Payload.withArgument? ['x'] (.literal ['2']))) = some comment ∧
            (document.withComment comment).render = .ok output ∧ output = "/**\n * @A(x=2)\n */".toList ∧
              call.behind dialect.naming = "hello".toList ∧ ¬ output.KeepsBehind (call.behind dialect.naming) := by
  intro dialect call tag
  let document : Document := .ofComment (.ofEntries [.tag tag]) (scan "/**\n * @A(x=1) hello\n */".toList)
  let comment : Comment := .ofEntries [.tag (tag.withPayload (.call (call.set ['x'] (.literal ['2']))))]
  have verbatim : dialect.OnlyVerbatim := fun _ mem => absurd mem List.not_mem_nil
  have run : dialect.read "/**\n * @A(x=1) hello\n */".toList = .ok document := rfl
  have rendered : (document.withComment comment).render = .ok "/**\n * @A(x=2)\n */".toList := by decide +kernel
  have behind : call.behind dialect.naming = "hello".toList := rfl
  refine ⟨document, comment, _, verbatim, run, rfl, rfl, rfl, rendered, rfl, behind, fun keeps => ?_⟩
  rw [behind] at keeps
  have letters : "hello".toList.all (fun c => !isBlank c) = true := by decide
  have black : Text.IsBlack "hello".toList :=
    ⟨nofun, fun c mem => (Bool.not_eq_true' _).mp (List.all_eq_true.mp letters c mem)⟩
  obtain ⟨front, back, split, held⟩ := keeps "hello".toList black (List.infix_refl _)
  have inside := held.trans (List.suffix_append (front ++ [')']) back).isInfix
  rw [List.append_assoc, List.singleton_append, ← split] at inside
  revert inside
  decide +kernel

end Dialect

end DocComment
