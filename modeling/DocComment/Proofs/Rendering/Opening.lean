import DocComment.Proofs.Reading.Coverage
import DocComment.Proofs.Rendering.Beginning
import DocComment.Proofs.Rendering.InOrder
import DocComment.Proofs.Rendering.Progress

/-!
# A layout begins with the opening marker

Whatever entries a comment has got, its text begins like the source up to the
opening marker, and no slash follows (`begins_laidOut`).  What leads up to an
entry begins with a blank or a star, and so does the rest of the source; an
entry that stands right behind the opening marker is the first one of the
source and begins as it did there.
-/

namespace DocComment

open Token

namespace Text

/-- The text does not begin with a slash. -/
def Unslashed (text : Text) : Prop :=
  text.head? ≠ some '/'

theorem unslashed_nil : Unslashed [] := by
  exact nofun

theorem unslashed_cons {c : Char} (rest : Text) (other : c ≠ '/') : Unslashed (c :: rest) :=
  fun head => other (Option.some.inj head)

theorem Unslashed.append {first second : Text} (one : first.Unslashed) (other : second.Unslashed) :
    Unslashed (first ++ second) := by
  cases first with
  | nil => exact other
  | cons => exact one

theorem Unslashed.append_of_ne_nil {first : Text} (one : first.Unslashed) (proper : first ≠ [])
    (second : Text) : Unslashed (first ++ second) := by
  cases first with
  | nil => exact absurd rfl proper
  | cons => exact one

theorem unslashed_flatMap {α : Type} {f : α → Text} {items : List α}
    (all : ∀ item ∈ items, (f item).Unslashed) : Unslashed (items.flatMap f) := by
  induction items with
  | nil => exact unslashed_nil
  | cons item items ih =>
      obtain ⟨here, later⟩ := List.forall_mem_cons.mp all
      exact here.append (ih later)

theorem unslashed_linePrefix (text : Text) : Unslashed (linePrefix ++ text) :=
  unslashed_cons _ (by decide)

end Text

namespace Token

/-- A token that stands beside entries is not empty and begins with no slash. -/
theorem unslashed_textAt {text : Text} {place : Nat} {kind : Kind}
    (stands : kindAt? (scan text) place = some kind)
    (beside : kind = .lineBreak ∨ kind = .padding) :
    (textAt (scan text) place).Unslashed := by
  have known : kind ≠ .other := by
    rcases beside with rfl | rfl <;> decide
  obtain ⟨token, found, rfl, cut⟩ := isPiece_of_kindAt? stands known
  rw [textAt_of_getElem? found]
  rcases beside with broken | padding
  · obtain ⟨carriage, indentation, star, written, carriages, _⟩ := cut.text_of_lineBreak broken
    rw [written]
    rcases carriages with rfl | rfl
    · exact Text.unslashed_cons _ (by decide)
    · exact Text.unslashed_cons _ (by decide)
  · intro head
    have pads := cut.text_of_padding padding '/' (List.mem_of_head? head)
    cases pads

theorem textAt_ne_nil {text : Text} {place : Nat} (within : place < (scan text).length) :
    textAt (scan text) place ≠ [] := by
  rw [textAt_of_getElem? (List.getElem?_eq_getElem within)]
  exact text_ne_nil_of_mem_scan (List.getElem_mem within)

/-- The tokens up to the opening marker cover what the text begins with. -/
theorem begins_of_opening {text : Text} {opening : Nat} (begins : text.Begins)
    (padded : Padded (scan text) 0 opening) (opens : kindAt? (scan text) opening = some .opening) :
    (∃ padding, (∀ c ∈ padding, isPadding c = true) ∧
      textBetween (scan text) 0 (opening + 1) = padding ++ Cleanup.opener) ∧
        (textOf ((scan text).drop (opening + 1))).head? ≠ some '/' := by
  obtain ⟨token, found, kind, cut⟩ := isPiece_of_kindAt? opens (by decide)
  have written := cut.text_of_opening kind
  have split := text_eq_of_getElem? found
  have blank := textOf_take_isPadding padded
  rw [written] at split
  refine ⟨⟨_, blank, ?_⟩, ?_⟩
  · rw [textBetween_append (Nat.zero_le opening) (Nat.le_succ opening), textBetween_succ found,
      written]
    rfl
  · obtain ⟨padding, rest, pads, whole, apart⟩ := begins
    have same :=
      (Text.trimStart_of_opens blank split).symm.trans (Text.trimStart_of_opens pads whole)
    rwa [List.append_cancel_left same]

/-- Widening a span does not reach the opening marker. -/
theorem Tiles.not_contains_opening {tokens : List Token} {opening close place : Nat}
    {spans : List Span} {span : Span} (tiles : Tiles tokens opening close spans)
    (mem : span ∈ spans) (floor : Nat) (front : place ≤ opening) :
    (Layout.widen tokens floor span).contains place = false := by
  have within := tiles.start_le mem
  have inside := (tiles.inside span mem).1
  obtain ⟨middle, padded, widened⟩ := Layout.widen_start floor within
  have behind : opening < middle := by
    rcases Nat.lt_or_ge opening middle with behind | before
    · exact behind
    · have padding := padded.padding opening before inside
      rw [tiles.opens] at padding
      cases padding
  rw [← Bool.not_eq_true, Span.contains_iff]
  rintro ⟨low, _⟩
  rcases widened with same | ⟨near, broken⟩
  · omega
  · have same : (Layout.widen tokens floor span).start = opening := by omega
    rw [same, tiles.opens] at broken
    cases broken

end Token

namespace Layout

variable {text : Text} {document : Document} {removed spans : List Span} {opening close : Nat}
  {progress : Progress} {entry : Entry} {span : Span} {later : List Entry}

/-- What is laid out from a place on begins like the source up to its opening
marker, if it is the start. -/
def Opens (tokens : List Token) (opening place : Nat) (text : Text) : Prop :=
  if place = 0 then
    ∃ more, text = textBetween tokens 0 (opening + 1) ++ more ∧ more.Unslashed
  else text.Unslashed

theorem Opens.append {tokens : List Token} {place : Nat} {first second : Text}
    (one : Opens tokens opening place first) (other : second.Unslashed) :
    Opens tokens opening place (first ++ second) := by
  unfold Opens at one ⊢
  split
  next start =>
    rw [if_pos start] at one
    obtain ⟨more, rfl, begins⟩ := one
    exact ⟨more ++ second, List.append_assoc _ _ _, begins.append other⟩
  next moved =>
    rw [if_neg moved] at one
    exact one.append other

section Scanned

variable (scanned : document.tokens = scan text)
  (tiles : Tiles document.tokens opening close spans)
  (opened : Opened document.tokens close (opening + 1) spans)
include scanned tiles opened

/-- Beside the entries stand only padding and line breaks, which begin with no slash. -/
theorem unslashed_of_filling {start stop : Nat} {parts : List Part}
    (filling : Filling spans start stop parts) (low : opening < start) (high : stop ≤ close) :
    Text.Unslashed (Part.textOf document.tokens parts) := by
  refine Text.unslashed_flatMap fun part mem => ?_
  cases part with
  | newLine => exact Text.unslashed_linePrefix []
  | token place =>
      have among : place ∈ Part.places parts := List.mem_filterMap.mpr ⟨_, mem, rfl⟩
      have inside := filling.between place among
      have within := Nat.lt_of_lt_of_le inside.2 (Nat.le_trans high tiles.close_le)
      obtain ⟨kind, stands⟩ := exists_kindAt? within
      have beside : kind = .lineBreak ∨ kind = .padding := by
        refine (opened.covered (by omega) (by omega) stands).resolve_right ?_
        rintro ⟨span, here, holds⟩
        rw [filling.outside place among span here] at holds
        cases holds
      rw [scanned] at stands
      change Text.Unslashed (textAt document.tokens place)
      rw [scanned]
      exact unslashed_textAt stands beside

/-! ## What leads up to an entry -/

omit scanned opened in
/-- In front of an entry that begins with a slash stands a token that is not left out. -/
theorem clear_of_slash
    (apart : (Token.textOf (document.tokens.drop (opening + 1))).head? ≠ some '/')
    (stands : entry.span? = some span)
    (reached : Reached document removed spans opening close progress (entry :: later))
    (ahead : progress.place ≤ span.start)
    (slash : (span.textIn document.tokens).head? = some '/') :
    max progress.place (opening + 1) < span.start ∧
      ∀ omitted ∈ removed ++ deferredSpans document.tokens later progress.place span.start,
        omitted.contains (span.start - 1) = false := by
  have mem : span ∈ spans := reached.known span (by simp [stands])
  have proper : span.start < span.stop := by
    refine Nat.lt_of_le_of_ne span.start_le_stop fun empty => ?_
    rw [Span.textIn, ← empty, textBetween_self] at slash
    cases slash
  have behind : opening + 1 < span.start := by
    refine Nat.lt_of_le_of_ne (tiles.inside span mem).1 fun same => apart ?_
    obtain ⟨more, split⟩ := textBetween_prefix_textOf document.tokens span.start span.stop
    rw [same, ← split, List.head?_append, ← Span.textIn, slash]
    rfl
  have separate : ∀ third ∈ spans, third.stop ≤ span.start - 1 ∨ span.start ≤ third.start := by
    intro third here
    rcases tiles.broken span mem with ⟨_, first⟩ | ⟨feed, _, back, apart⟩
    · exact Or.inr (first third here)
    · have reach := back.start_le
      exact (apart third here).imp_left fun passed => by omega
  refine ⟨Nat.max_lt.mpr ⟨?_, behind⟩, fun omitted left => ?_⟩
  · rcases reached.anchored with front | ⟨third, here, ends⟩
    · exact Nat.lt_of_le_of_lt front behind
    · rcases separate third here with passed | later
      · omega
      · -- The other span would be empty and start together with this one.
        have low := third.start_le_stop
        have distinct : third ≠ span := by
          rintro rfl
          omega
        rcases Span.precedes_or_precedes tiles.precede here mem distinct with precedes | precedes
        · have starts := precedes.1
          omega
        · have starts := precedes.1
          omega
  · obtain ⟨third, here, again, floor, rfl⟩ := exists_widen_of_left stands reached left
    refine tiles.not_contains_widen mem here (fun same => ?_) (by omega) (separate third here) floor
    have empty := (again same).2
    omega

/-- Behind the opening marker, an entry and what leads up to it begin with no slash. -/
theorem unslashed_gap
    (apart : (Token.textOf (document.tokens.drop (opening + 1))).head? ≠ some '/')
    (stands : entry.span? = some span)
    (reached : Reached document removed spans opening close progress (entry :: later))
    (ahead : progress.place ≤ span.start) {body : Text}
    (begins : body.Unslashed ∨ body = span.textIn document.tokens) :
    Text.Unslashed (gap document.tokens
      (removed ++ deferredSpans document.tokens later progress.place span.start)
        (max progress.place (opening + 1)) span.start ++ body) := by
  have mem : span ∈ spans := reached.known span (by simp [stands])
  have inside := tiles.inside span mem
  have proper := span.start_le_stop
  have filling := filling_of_gap tiles stands reached (Nat.le_max_left _ (opening + 1))
    (Nat.max_le.mpr ⟨ahead, inside.1⟩)
  have front := unslashed_of_filling scanned tiles opened filling (by omega) (by omega)
  rw [textOf_placesOutside] at front
  rcases begins with begins | rfl
  · exact front.append begins
  · by_cases slash : (span.textIn document.tokens).head? = some '/'
    · obtain ⟨low, clear⟩ := clear_of_slash tiles apart stands reached ahead slash
      have within : span.start - 1 < (scan text).length := by
        have high := tiles.close_le
        rw [scanned] at high
        omega
      obtain ⟨c, written⟩ := List.exists_mem_of_ne_nil _ (textAt_ne_nil within)
      rw [← scanned] at written
      have last : span.start - 1 < span.start := by omega
      exact front.append_of_ne_nil (List.ne_nil_of_mem
        (mem_gap (Nat.le_sub_one_of_lt low) last clear written)) _
    · exact front.append slash

theorem opens_lead
    (apart : (Token.textOf (document.tokens.drop (opening + 1))).head? ≠ some '/')
    (stands : entry.span? = some span)
    (reached : Reached document removed spans opening close progress (entry :: later)) {body : Text}
    (begins : body.Unslashed ∨ body = span.textIn document.tokens) :
    Opens document.tokens opening progress.place
      (leadOf document removed progress span later ++ body) := by
  have onNewLine (moved : progress.place ≠ 0) :
      Opens document.tokens opening progress.place (linePrefix ++ body) := by
    rw [Opens, if_neg moved]
    exact Text.unslashed_linePrefix body
  unfold leadOf
  split
  next behind => exact onNewLine (by omega)
  next ahead =>
    rw [Nat.not_lt] at ahead
    have rest := unslashed_gap scanned tiles opened apart stands reached ahead begins
    dsimp only
    split
    next fresh =>
      rw [Bool.and_eq_true] at fresh
      refine onNewLine fun start => ?_
      rcases reached.started with ⟨_, sourced⟩ | moved
      · rw [sourced] at fresh
        cases fresh.1
      · omega
    next =>
      unfold Opens
      split
      next start =>
        have mem : span ∈ spans := reached.known span (by simp [stands])
        have clear : ∀ place, 0 ≤ place → place < opening + 1 → ∀ omitted ∈ removed ++
            deferredSpans document.tokens later progress.place span.start,
              omitted.contains place = false := by
          intro place _ front omitted left
          obtain ⟨third, here, _, floor, rfl⟩ := exists_widen_of_left stands reached left
          exact tiles.not_contains_opening here floor (Nat.le_of_lt_succ front)
        rw [start] at rest clear ⊢
        rw [Nat.zero_max] at rest
        refine ⟨_, ?_, rest⟩
        rw [← gap_append _ _ (Nat.zero_le (opening + 1)) (tiles.inside span mem).1,
          gap_eq_textBetween _ clear, List.append_assoc]
      next moved =>
        have behind := reached.started.resolve_left fun start => moved start.1
        rwa [Nat.max_eq_left behind] at rest

/-! ## What is left of the source -/

omit scanned opened in
/-- At the start there is no line break whose double could be dropped. -/
theorem tailStart_of_start (start : progress.place = 0) :
    tailStart document.tokens progress = 0 := by
  have unbroken : kindAt? document.tokens progress.place ≠ some .lineBreak := by
    rw [start]
    rcases Nat.eq_zero_or_pos opening with first | later
    · rw [← first, tiles.opens]
      decide
    · rw [tiles.front.padding 0 (Nat.le_refl 0) later]
      decide
  rw [tailStart, if_neg (by simp [unbroken]), start]

/-- Behind the opening marker, what is left of the source begins with no slash. -/
theorem unslashed_rest (reached : Reached document removed spans opening close progress [])
    {start : Nat} (low : progress.place ≤ start) (behind : opening < start)
    (front : start ≤ close) :
    Text.Unslashed (gap document.tokens removed start document.tokens.length) := by
  have before := unslashed_of_filling scanned tiles opened
    (filling_of_rest tiles reached low front) behind (Nat.le_refl close)
  rw [textOf_placesOutside] at before
  rw [← gap_append _ _ front tiles.close_le]
  refine before.append ?_
  rw [gap_eq_textBetween _ fun place from_close _ => not_contains_close tiles reached from_close]
  rcases Nat.lt_or_ge close document.tokens.length with within | beyond
  · obtain ⟨kind, stands⟩ := exists_kindAt? within
    obtain rfl := tiles.closes kind stands
    rw [scanned] at stands within ⊢
    obtain ⟨token, found, closing, cut⟩ := isPiece_of_kindAt? stands (by decide)
    rw [textBetween_cons found within, cut.text_of_closing closing]
    exact Text.unslashed_cons _ (by decide)
  · rw [textBetween_of_length_le beyond]
    exact Text.unslashed_nil

theorem opens_tail (reached : Reached document removed spans opening close progress []) :
    Opens document.tokens opening progress.place (tail document removed progress) := by
  unfold Opens
  split
  next start =>
    have proper := tiles.opening_lt_close
    have high := Nat.le_trans proper tiles.close_le
    refine ⟨gap document.tokens removed (opening + 1) document.tokens.length, ?_,
      unslashed_rest scanned tiles opened reached (by omega) (Nat.lt_succ_self _) proper⟩
    rw [tail, tailStart_of_start tiles start, ← gap_append _ _ (Nat.zero_le _) high,
      gap_eq_textBetween _ fun place _ front omitted left => ?_]
    obtain ⟨third, here, _, floor, rfl⟩ := reached.spared omitted left
    exact tiles.not_contains_opening here floor (Nat.le_of_lt_succ front)
  next moved =>
    have behind := reached.started.resolve_left fun start => moved start.1
    have start := tailStart_le tiles reached
    exact unslashed_rest scanned tiles opened reached start.1 (by omega) start.2

/-! ## The whole layout -/

/-- An entry that comes from the source, and was changed, is not written with a slash in front. -/
def Settled (document : Document) (entry : Entry) : Prop :=
  ∀ span, entry.span? = some span →
    entry ∈ document.asRead.entries ∨ (document.rendering entry).Unslashed

omit scanned opened in
theorem begins_of_settled (spans? : document.asRead.entries.map Entry.span? = spans.map some)
    (stands : entry.span? = some span) (settled : Settled document entry) :
    let body := (placeSourced document removed progress entry span later).1.body
    body.Unslashed ∨ body = span.textIn document.tokens := by
  dsimp only
  rw [body_of_placeSourced spans? tiles.precede stands]
  refine (settled span stands).symm.imp_right fun read => ?_
  rw [Document.rendering, stands]
  exact if_pos read

omit scanned opened in
/-- A new entry starts its line, behind the opening marker at the latest. -/
theorem opens_fresh
    (reached : Reached document removed spans opening close progress (entry :: later)) :
    let placed := (placeFresh document removed progress entry).1
    Opens document.tokens opening progress.place (placed.lead ++ placed.body) := by
  unfold Opens placeFresh
  dsimp only
  rw [tiles.openingEnd_eq]
  split
  next =>
    rw [gap_eq_textBetween _ fun place _ front omitted left => ?_, List.append_assoc]
    · exact ⟨_, rfl, Text.unslashed_linePrefix _⟩
    · obtain ⟨third, here, _, floor, rfl⟩ := reached.spared omitted left
      exact tiles.not_contains_opening here floor (Nat.le_of_lt_succ front)
  next => exact Text.unslashed_linePrefix _

section Reading

variable (apart : (Token.textOf (document.tokens.drop (opening + 1))).head? ≠ some '/')
  (spans? : document.asRead.entries.map Entry.span? = spans.map some)
include apart spans?

/-- One entry is placed as the text must go on, and behind the opening marker. -/
theorem opens_place (settled : Settled document entry)
    (reached : Reached document removed spans opening close progress (entry :: later)) :
    let placed := Layout.place document removed progress entry later
    Opens document.tokens opening progress.place (placed.1.lead ++ placed.1.body) ∧
      placed.2.place ≠ 0 ∧ Reached document removed spans opening close placed.2 later := by
  dsimp only
  unfold Layout.place
  cases stands : entry.span? with
  | none =>
      have next := reached_fresh tiles stands reached true true
      rw [← tiles.openingEnd_eq] at next
      refine ⟨opens_fresh tiles reached, ?_, next⟩
      change (if progress.place = 0 then openingEnd document.tokens else progress.place) ≠ 0
      rw [tiles.openingEnd_eq]
      split
      next => exact Nat.succ_ne_zero opening
      next moved => exact moved
  | some span =>
      have mem : span ∈ spans := reached.known span (by simp [stands])
      have inside := (tiles.inside span mem).1
      have proper := span.start_le_stop
      refine ⟨?_, ?_, reached_sourced tiles stands reached _ false⟩
      · exact opens_lead scanned tiles opened apart stands reached
          (begins_of_settled tiles spans? stands settled)
      · change max progress.place span.stop ≠ 0
        omega

/-- However entries are placed, the text goes on as it must from the place that was reached. -/
theorem opens_placeAll (settled : ∀ entry ∈ later, Settled document entry)
    (reached : Reached document removed spans opening close progress later) :
    Opens document.tokens opening progress.place
      (textOf (placeAll document removed progress later).1 ++
        tail document removed (placeAll document removed progress later).2) := by
  induction later generalizing progress with
  | nil => exact opens_tail scanned tiles opened reached
  | cons entry later ih =>
      obtain ⟨here, others⟩ := List.forall_mem_cons.mp settled
      obtain ⟨opens, moved, goesOn⟩ := opens_place scanned tiles opened apart spans? here reached
      have rest := ih others goesOn
      rw [Opens, if_neg moved] at rest
      have whole := opens.append rest
      rw [← List.append_assoc] at whole
      exact whole

end Reading

/-- Whatever a comment has become, its text begins as the source does. -/
theorem begins_laidOut (begins : text.Begins)
    (spans? : document.asRead.entries.map Entry.span? = spans.map some)
    (known : ∀ span ∈ document.comment.entries.filterMap Entry.span?, span ∈ spans)
    (settled : ∀ entry ∈ document.comment.entries, Settled document entry) :
    (document.laidOut (leftOut document spans)).1.Begins := by
  have padded := tiles.front
  have opens := tiles.opens
  rw [scanned] at padded opens
  obtain ⟨⟨padding, blank, front⟩, apart⟩ := begins_of_opening begins padded opens
  rw [← scanned] at front apart
  have whole := opens_placeAll scanned tiles opened apart spans? settled
    (reached_start document opening close tiles.precede known)
  obtain ⟨more, written, unslashed⟩ := (if_pos rfl).mp whole
  exact ⟨padding, more, blank, by rw [← List.append_assoc, ← front]; exact written, unslashed⟩

end Scanned

end Layout

end DocComment
