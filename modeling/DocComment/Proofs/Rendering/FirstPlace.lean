import DocComment.Proofs.Rendering.Wording

/-!
# Where a separator is taken from

The separator of a changed tag is the padding at the first place of the source where the name of the
tag stands in front of some and the variable of its payload, if it names one, later on the
line (`Separator.ofTag_eq_iff`).  So a tag keeps the padding behind its own name if and only if
the first such place has the same (`separated_of_retyped_iff`).
-/

namespace DocComment

open Token

/-! ## Searches -/

/-- A search from the left answers what a rule gives at the first place where it gives something. -/
theorem Text.firstSuffix?_eq_some_iff {α : Type} {rule : Text → Option α} {answer : α}
    {text : Text} :
    firstSuffix? rule text = some answer ↔
      ∃ place, rule (text.drop place) = some answer ∧
        ∀ earlier < place, rule (text.drop earlier) = none := by
  induction text with
  | nil =>
      constructor
      · exact fun found => ⟨0, found, by simp⟩
      · rintro ⟨place, found, -⟩
        rwa [List.drop_nil] at found
  | cons c rest ih =>
      rw [firstSuffix?]
      split
      next other here =>
        constructor
        · rintro ⟨⟩
          exact ⟨0, here, by simp⟩
        · rintro ⟨place, found, none⟩
          cases place with
          | zero => exact here.symm.trans found
          | succ place =>
              have empty := none 0 (Nat.succ_pos place)
              rw [List.drop_zero, here] at empty
              cases empty
      next here =>
        rw [ih]
        constructor
        · rintro ⟨place, found, none⟩
          refine ⟨place + 1, found, fun earlier before => ?_⟩
          cases earlier with
          | zero => exact here
          | succ earlier => exact none earlier (Nat.lt_of_succ_lt_succ before)
        · rintro ⟨place, found, none⟩
          cases place with
          | zero =>
              rw [List.drop_zero, here] at found
              cases found
          | succ place =>
            exact ⟨place, found, fun earlier before => none (earlier + 1) (Nat.succ_lt_succ before)⟩

theorem Text.firstSuffix?_ne_none {α : Type} {rule : Text → Option α} {text : Text} {place : Nat}
    (found : rule (text.drop place) ≠ none) : firstSuffix? rule text ≠ none := by
  induction text generalizing place with
  | nil => rwa [List.drop_nil] at found
  | cons c rest ih =>
      rw [firstSuffix?]
      split
      next => simp
      next here =>
        cases place with
        | zero => exact absurd here found
        | succ place => exact ih found

namespace Separator

variable {source text padding rest : Text} {tag : Tag} {named : Text}

/-- A variable is on a line just when it is behind the padding in front. -/
theorem occursOnLine_padding (dollar : named.head? = some '$')
    (soft : ∀ c ∈ padding, isPadding c = true) :
    occursOnLine named (padding ++ rest) = occursOnLine named rest := by
  obtain ⟨name, rfl⟩ := List.head?_eq_some_iff.mp dollar
  induction padding with
  | nil => rfl
  | cons c padding ih =>
      obtain ⟨here, later⟩ := List.forall_mem_cons.mp soft
      have other : '$' ≠ c := by
        rintro rfl
        cases here
      have inside : c ≠ '\n' := by
        rintro rfl
        cases here
      have apart : Text.startsWith ('$' :: name) (c :: (padding ++ rest)) = false := by
        rw [Text.startsWith, Text.after?, if_neg other]
        rfl
      rw [List.cons_append, occursOnLine, ih later, apart, Bool.false_or]
      simp [inside]

theorem longest?_padding (dollar : named.head? = some '$')
    (soft : ∀ c ∈ padding, isPadding c = true) (length : Nat) :
    longest? named padding rest length =
      if length ≠ 0 ∧ occursOnLine named rest = true then some (padding.take length) else none := by
  induction length with
  | zero => simp [longest?]
  | succ length ih =>
      have behind : ∀ c ∈ padding.drop (length + 1), isPadding c = true :=
        fun c mem => soft c (List.mem_of_mem_drop mem)
      rw [longest?, occursOnLine_padding dollar behind, ih]
      cases occursOnLine named rest with
      | false => simp
      | true => simp

/-- Padding that separates something, and the variable of a payload on the line behind it. -/
structure Separates (named : Option Text) (padding rest : Text) : Prop where
  proper : padding ≠ []
  soft : ∀ c ∈ padding, isPadding c = true
  firm : ∀ c, rest.head? = some c → isPadding c = false
  onLine : ∀ name, named = some name → occursOnLine name rest = true

/-- Of a text that begins with padding the whole padding separates, or none of it. -/
theorem typed?_append {named : Option Text}
    (dollar : ∀ name, named = some name → name.head? = some '$')
    (soft : ∀ c ∈ padding, isPadding c = true)
    (firm : ∀ c, rest.head? = some c → isPadding c = false) {found : Text} :
    typed? named (padding ++ rest) = some found ↔
      found = padding ∧ Separates named padding rest := by
  have stays : rest.takeWhile isPadding = [] ∧ rest.dropWhile isPadding = rest := by
    cases rest with
    | nil => exact ⟨rfl, rfl⟩
    | cons c rest =>
        have here : ¬ isPadding c = true := by simp [firm c rfl]
        exact ⟨List.takeWhile_cons_of_neg here, List.dropWhile_cons_of_neg here⟩
  unfold typed?
  rw [List.takeWhile_append_of_pos soft, List.dropWhile_append_of_pos soft, stays.1, stays.2,
    List.append_nil]
  have separates : Separates named padding rest ↔
      padding ≠ [] ∧ ∀ name, named = some name → occursOnLine name rest = true :=
    ⟨fun separates => ⟨separates.proper, separates.onLine⟩,
      fun ⟨proper, onLine⟩ => ⟨proper, soft, firm, onLine⟩⟩
  rw [separates]
  cases named with
  | none =>
      dsimp only
      rw [Option.ite_none_left_eq_some, List.isEmpty_iff, Option.some.injEq]
      exact ⟨fun ⟨proper, same⟩ => ⟨same.symm, proper, by simp⟩,
        fun ⟨same, proper, _⟩ => ⟨proper, same.symm⟩⟩
  | some name =>
      dsimp only
      rw [longest?_padding (dollar name rfl) soft, List.take_length, Option.ite_none_right_eq_some,
        Option.some.injEq, ne_eq, List.length_eq_zero_iff]
      constructor
      · rintro ⟨⟨proper, onLine⟩, same⟩
        refine ⟨same.symm, proper, ?_⟩
        rintro _ ⟨⟩
        exact onLine
      · exact fun ⟨same, proper, onLine⟩ => ⟨⟨proper, onLine name rfl⟩, same.symm⟩

theorem typed?_eq_some_iff {named : Option Text}
    (dollar : ∀ name, named = some name → name.head? = some '$') :
    typed? named text = some padding ↔ ∃ rest, text = padding ++ rest ∧
    Separates named padding rest := by
  constructor
  · intro found
    have firm : ∀ c, (text.dropWhile isPadding).head? = some c → isPadding c = false := by
      intro c head
      have first := List.head?_dropWhile_not isPadding text
      rw [head] at first
      simpa using first
    have soft : ∀ c ∈ text.takeWhile isPadding, isPadding c = true :=
      fun c mem => List.mem_takeWhile_imp mem
    have whole := List.takeWhile_append_dropWhile (p := isPadding) (l := text)
    rw [← whole, typed?_append dollar soft firm] at found
    obtain ⟨rfl, separates⟩ := found
    exact ⟨_, whole.symm, separates⟩
  · rintro ⟨rest, rfl, separates⟩
    exact (typed?_append dollar separates.soft separates.firm).mpr ⟨rfl, separates⟩

/-- A place of the source where the name of a tag stands in front of padding that
fits its payload. -/
def FitsAt (source : Text) (tag : Tag) (place : Nat) (padding : Text) : Prop :=
  ∃ rest, source.drop place = tag.name ++ (padding ++ rest) ∧ Separates tag.payload.variableName? padding rest

/-- The separator of a typed tag is the padding at the first place that fits, if there is one. -/
theorem ofTag_eq_iff (typed : tag.payload.kind.isTyped = true)
    (dollar : ∀ name, tag.payload.variableName? = some name → name.head? = some '$') {place : Nat}
    {own : Text} (fits : FitsAt source tag place own) :
    ofTag source tag = padding ↔
      ∃ place, FitsAt source tag place padding ∧
        ∀ earlier < place, ∀ other, ¬ FitsAt source tag earlier other := by
  have rule (place : Nat) (padding : Text) :
      behindName? tag (source.drop place) = some padding ↔ FitsAt source tag place padding := by
    rw [behindName?, Option.bind_eq_some_iff]
    simp only [typed, if_true, Text.after?_eq_some_iff, typed?_eq_some_iff dollar, FitsAt]
    constructor
    · rintro ⟨_, stands, rest, rfl, separates⟩
      exact ⟨rest, stands, separates⟩
    · rintro ⟨rest, stands, separates⟩
      exact ⟨_, stands, rest, rfl, separates⟩
  have none (place : Nat) : behindName? tag (source.drop place) = none ↔
      ∀ other, ¬ FitsAt source tag place other := by
    rw [Option.eq_none_iff_forall_ne_some]
    exact forall_congr' fun other => not_congr (rule place other)
  have first : ofTag source tag = padding ↔
      Text.firstSuffix? (behindName? tag) source = some padding := by
    obtain ⟨other, found⟩ := Option.ne_none_iff_exists'.mp
      (Text.firstSuffix?_ne_none (Option.ne_none_iff_exists'.mpr ⟨own, (rule place own).mpr fits⟩))
    rw [ofTag, found, Option.getD_some, Option.some.injEq]
  rw [first, Text.firstSuffix?_eq_some_iff]
  simp only [rule, none]

end Separator

/-! ## Tags that were read -/

namespace Dialect

variable {text : Text} {document : Document} {place : Nat} {tag : Tag}

/-- A tag that was read stands in the source at the beginning of its span. -/
theorem exists_drop_of_read (run : plain.read text = .ok document)
    (stands : document.comment.entry? place = some (.tag tag)) {span : Span}
    (span? : tag.span = some span) :
    document.tokens.drop span.start =
      ⟨.tag, tag.name⟩ :: document.tokens.drop (span.start + 1) := by
  obtain ⟨before, after, tokens, -, taken⟩ :=
    exists_entry_of_read plain_onlyVerbatim run _ (List.mem_of_getElem? stands)
  obtain ⟨shared, padding, covers⟩ := covers_of_entry plain_onlyVerbatim taken
  obtain ⟨marked, named, -⟩ := payload_of_entry taken
  obtain rfl : span = .between before.index (before.index + shared.length) :=
    Option.some.inj (span?.symm.trans covers.span?)
  obtain ⟨token, rest, split, kind⟩ := Cursor.exists_cons_of_kind? (beq_iff_eq.mp marked)
  have called : tag.name = token.text := named.trans (Cursor.text_of_rest split)
  have start : document.tokens.drop before.index = token :: rest := by
    rw [tokens_of_read run, ← tokens, ← Cursor.rest_eq_drop, split]
  rw [Span.between_start, ← List.drop_drop, start, called, ← kind]
  rfl

end Dialect

theorem Payload.eq_of_withType? {payload changed : Payload} {type : TypeExpr}
    (change : payload.withType? type = some changed) :
    changed.kind.isTyped = true ∧ changed.variableName? = payload.variableName? := by
  cases payload with
  | typed subject description =>
      cases change
      cases subject <;> exact ⟨rfl, rfl⟩
  | plain | call | cleared => cases change

/--
A typed tag that was read gets another type.  It is written with the padding that followed its name
in the source just when that is the padding at the first place that fits, provided that the value
has a written form, that its variable stands on the line of the tag, and that a recorded description
is not put back over the name or the separator.
-/
theorem separated_of_retyped_iff {text : Text} {document : Document} {place : Nat} {tag changed : Tag}
    (run : Dialect.plain.read text = .ok document) (stands : document.comment.entry? place = some (.tag tag))
    {type : TypeExpr} (change : tag.changePayload? (Payload.withType? type) = some changed)
    {span : Span} (span? : tag.span = some span) {padding rest : Text}
    (behind : textOf (document.tokens.drop (span.start + 1)) = padding ++ rest)
    (separates : Separator.Separates tag.payload.variableName? padding rest)
    (written : Text.trimStart changed.payload.render ≠ [])
    (aside : ∀ wording description, changed.wording = some wording → changed.payload.description? = some description →
      Text.Unfound (Text.words description) (changed.name ++ Separator.ofTag document.source changed)
        (Text.trimStart changed.payload.render)) :
    changed.renderChanged document.source =
        changed.name ++ padding ++ changed.restoreWording (Text.trimStart changed.payload.render) ↔
      ∃ first, Separator.FitsAt document.source changed first padding ∧
        ∀ earlier < first, ∀ other, ¬ Separator.FitsAt document.source changed earlier other := by
  obtain ⟨before, after, tokens, -, taken⟩ :=
    Dialect.exists_entry_of_read Dialect.plain_onlyVerbatim run _ (List.mem_of_getElem? stands)
  obtain ⟨payload, typed, rfl⟩ := Option.map_eq_some_iff.mp change
  obtain ⟨kind, named⟩ := Payload.eq_of_withType? typed
  -- The place of the tag itself is one that fits.
  have own : Separator.FitsAt document.source (tag.withPayload payload) (textOf (document.tokens.take span.start)).length
      padding := by
    refine ⟨rest, ?_, named ▸ separates⟩
    have whole := congrArg textOf (List.take_append_drop span.start document.tokens)
    rw [textOf_append] at whole
    rw [Document.source, ← whole, List.drop_left, Dialect.exists_drop_of_read run stands span?, textOf_cons, behind]
    rfl
  have dollar : ∀ name, payload.variableName? = some name → name.head? = some '$' :=
    named ▸ Dialect.dollar_of_entry tokens taken
  rw [← Separator.ofTag_eq_iff kind dollar own]
  rw [Tag.renderChanged_eq written, Tag.restoreWording_append aside, List.append_cancel_right_eq, List.append_cancel_left_eq]

/-- Two spaces are kept behind `@param`, although a longer name begins with it in front. -/
theorem separated_of_retyped_param :
    ∃ document tag changed, Dialect.plain.read "/**\n * @params x\n * @param  int $a\n */".toList = .ok document ∧
      document.comment.entry? 1 = some (.tag tag) ∧
      tag.changePayload? (Payload.withType? (.named "bool".toList)) = some changed ∧
      changed.renderChanged document.source = "@param  bool $a".toList := by
  let other : Tag := ⟨"@params".toList, .plain ['x'], some ⟨3, 3⟩, none⟩
  let tag : Tag :=
    ⟨"@param".toList, .typed (.param (some (.named "int".toList)) false false "$a".toList) [], some ⟨8, 5⟩, none⟩
  let source := "/**\n * @params x\n * @param  int $a\n */".toList
  have run : Dialect.plain.read source = .ok (.ofComment (.ofEntries [.tag other, .tag tag]) (scan source)) := by
    decide +kernel
  let changed := tag.withPayload (.typed (.param (some (.named "bool".toList)) false false "$a".toList) [])
  have separates : Separator.Separates (some "$a".toList) [' ', ' '] "int $a\n */".toList :=
    ⟨List.cons_ne_nil _ _, List.forall_mem_cons.mpr ⟨rfl, List.forall_mem_singleton.mpr rfl⟩, by rintro _ ⟨⟩; rfl,
      by rintro _ ⟨⟩; rfl⟩
  have kept := @separated_of_retyped_iff _ _ 1 tag changed run rfl (.named "bool".toList) rfl ⟨8, 5⟩ rfl [' ', ' ']
    "int $a\n */".toList rfl separates (by decide) (by rintro _ _ ⟨⟩)
  -- In front of the twentieth character no padding stands behind the name.
  have apart : ∀ place < 20, ((Text.after? tag.name (source.drop place)).bind List.head?).any isPadding = false := by
    decide +kernel
  refine ⟨_, tag, changed, run, rfl, rfl, kept.mpr ⟨20, ⟨_, rfl, separates⟩, fun place before padding fits => ?_⟩⟩
  obtain ⟨rest, stands, separated⟩ := fits
  obtain ⟨c, padding, rfl⟩ := List.exists_cons_of_ne_nil separated.proper
  have found : Text.after? tag.name (source.drop place) = some (c :: padding ++ rest) := Text.after?_eq_some_iff.mpr stands
  have none := apart place before
  rw [found] at none
  have soft : isPadding c = false := none
  rw [separated.soft c List.mem_cons_self] at soft
  cases soft

/-- The second tag of a name is written with the tab behind the first one in the
place of its own space. -/
theorem not_separated_of_retyped_second :
    ∃ document tag changed rest, Dialect.plain.read "/**\n * @return\tint\n * @return string\n */".toList = .ok document ∧
      document.comment.entry? 1 = some (.tag tag) ∧ tag.span = some ⟨8, 3⟩ ∧
      textOf (document.tokens.drop 9) = ' ' :: 's' :: rest ∧
      tag.changePayload? (Payload.withType? (.named "bool".toList)) = some changed ∧
      changed.renderChanged document.source = "@return\tbool".toList := by
  let first : Tag := ⟨"@return".toList, .typed (.returned (.named "int".toList)) [], some ⟨3, 3⟩, none⟩
  let tag : Tag := ⟨"@return".toList, .typed (.returned (.named "string".toList)) [], some ⟨8, 3⟩, none⟩
  let source := "/**\n * @return\tint\n * @return string\n */".toList
  have run : Dialect.plain.read source = .ok (.ofComment (.ofEntries [.tag first, .tag tag]) (scan source)) := by
    decide +kernel
  exact ⟨_, tag, _, _, run, rfl, rfl, rfl, rfl, rfl⟩

end DocComment
