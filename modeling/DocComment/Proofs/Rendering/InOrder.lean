import DocComment.Proofs.Rendering.Removal

/-!
# Entries in the order of their source

When the entries that remain stand in the order in which they were read, laying
them out gap by gap gives the same text as one pass over the tokens
(`text_of_placeAll`).  That pass, `revisedFrom`, leaves out the places of some spans
and puts texts in the place of others.
-/

namespace DocComment

open Token

/-- What a document writes for an entry: the source of an entry that was read as it is. -/
def Document.rendering (document : Document) (entry : Entry) : Text :=
  match entry.span? with
  | none => decorate entry.renderFresh
  | some span =>
      if entry ∈ document.asRead.entries then span.textIn document.tokens
      else decorate (entry.renderChanged document.source)

/-- A text that is to stand in the place of a span. -/
structure Replacement where
  span : Span
  text : Text
deriving DecidableEq, Repr

/-- What is to stand in the place of an entry that was read and then changed. -/
def Document.replacement? (document : Document) (entry : Entry) : Option Replacement :=
  if entry ∈ document.asRead.entries then none
  else entry.span?.map fun span => ⟨span, decorate (entry.renderChanged document.source)⟩

namespace Layout

/-! ## One pass over the tokens -/

/-- The texts that are to stand where a place is. -/
def insertedAt (replaced : List Replacement) (place : Nat) : Text :=
  replaced.flatMap fun replacement =>
    if replacement.span.start = place then replacement.text else []

/--
The texts of tokens without the places of the omitted spans, and with texts in
the places of the replaced ones.  The number is the place of the first token.
-/
def revisedFrom (omitted : List Span) (replaced : List Replacement) : Nat → List Token → Text
  | place, [] => insertedAt replaced place
  | place, token :: rest =>
      insertedAt replaced place ++
        (if omitted.any (·.contains place) || replaced.any (·.span.contains place) then []
          else token.text) ++
        revisedFrom omitted replaced (place + 1) rest

/-- What the pass writes at a place. -/
def revisedAt (tokens : List Token) (omitted : List Span) (replaced : List Replacement)
    (place : Nat) : Text :=
  insertedAt replaced place ++
    if omitted.any (·.contains place) || replaced.any (·.span.contains place) then []
    else textAt tokens place

variable {tokens : List Token} {omitted : List Span} {replaced : List Replacement}

/-- The pass from a place on, place by place; the last place is the one behind the tokens. -/
theorem revisedFrom_eq {place : Nat} (within : place ≤ tokens.length) :
    revisedFrom omitted replaced place (tokens.drop place) =
      (List.range' place (tokens.length + 1 - place)).flatMap
        (revisedAt tokens omitted replaced) := by
  induction left : tokens.length - place generalizing place with
  | zero =>
      have last : place = tokens.length := by omega
      subst last
      have beyond := textAt_of_length_le (Nat.le_refl tokens.length)
      rw [List.drop_length, show tokens.length + 1 - tokens.length = 1 by omega]
      simp [revisedFrom, revisedAt, beyond]
  | succ left ih =>
      have inside : place < tokens.length := by omega
      have here := textAt_of_getElem? (List.getElem?_eq_getElem inside)
      rw [List.drop_eq_getElem_cons inside, revisedFrom, ih (by omega) (by omega),
        show tokens.length + 1 - place = (tokens.length + 1 - (place + 1)) + 1 by omega,
        List.range'_succ, List.flatMap_cons, revisedAt, here]

theorem insertedAt_eq_nil {place : Nat}
    (absent : ∀ replacement ∈ replaced, replacement.span.start ≠ place) :
    insertedAt replaced place = [] := by
  rw [insertedAt, List.flatMap_eq_nil_iff]
  intro replacement mem
  exact if_neg (absent replacement mem)

/-- In front of all replaced spans the pass only omits. -/
theorem revisedAt_of_lt {place : Nat}
    (front : ∀ replacement ∈ replaced, place < replacement.span.start) :
    revisedAt tokens omitted replaced place =
      if omitted.any (·.contains place) then [] else textAt tokens place := by
  have untouched : replaced.any (·.span.contains place) = false := by
    rw [List.any_eq_false]
    intro replacement mem covered
    exact absurd (Span.contains_iff.mp covered).1 (Nat.not_le.mpr (front replacement mem))
  rw [revisedAt, insertedAt_eq_nil fun replacement mem => Nat.ne_of_gt (front replacement mem),
    untouched, Bool.or_false, List.nil_append]

/-- The pass up to a place in front of all replaced spans is a gap. -/
theorem revisedFrom_gap {start stop : Nat} (low : start ≤ stop) (high : stop ≤ tokens.length)
    (front : ∀ replacement ∈ replaced, stop ≤ replacement.span.start) :
    revisedFrom omitted replaced start (tokens.drop start) =
      gap tokens omitted start stop ++
        revisedFrom omitted replaced stop (tokens.drop stop) := by
  have split := List.range'_append_1 (s := start) (m := stop - start)
    (n := tokens.length + 1 - stop)
  rw [show start + (stop - start) = stop by omega,
    show stop - start + (tokens.length + 1 - stop) = tokens.length + 1 - start by omega] at split
  rw [revisedFrom_eq (by omega), revisedFrom_eq high, ← split, List.flatMap_append,
    gap_eq_flatMap]
  congr 1
  refine List.flatMap_congr fun place mem => revisedAt_of_lt fun replacement among => ?_
  have inside := List.mem_range'_1.mp mem
  have behind := front replacement among
  omega

/-- Behind the first replaced span the pass goes on as without it. -/
theorem revisedAt_cons_of_behind {first : Replacement} {place : Nat}
    (behind : first.span.start < place) (outside : first.span.stop ≤ place) :
    revisedAt tokens omitted (first :: replaced) place =
      revisedAt tokens omitted replaced place := by
  have uncovered : first.span.contains place = false := by
    rw [← Bool.not_eq_true, Span.contains_iff]
    omega
  rw [revisedAt, revisedAt, insertedAt, List.flatMap_cons, if_neg (Nat.ne_of_lt behind),
    List.nil_append, List.any_cons, uncovered, Bool.false_or]
  rfl

/-- Inside the first replaced span the pass writes nothing. -/
theorem revisedAt_cons_of_inside {first : Replacement} {place : Nat}
    (behind : first.span.start < place) (inside : place < first.span.stop)
    (later : ∀ replacement ∈ replaced, first.span.stop ≤ replacement.span.start) :
    revisedAt tokens omitted (first :: replaced) place = [] := by
  have covered : first.span.contains place = true :=
    Span.contains_iff.mpr ⟨Nat.le_of_lt behind, inside⟩
  rw [revisedAt, insertedAt_eq_nil, List.any_cons, covered, Bool.true_or, Bool.or_true, if_pos rfl,
    List.append_nil]
  intro replacement among
  rcases List.mem_cons.mp among with rfl | among
  · exact Nat.ne_of_lt behind
  · have further := later replacement among
    omega

/-- Where the first replaced span starts the pass writes its text, and the token if it is empty. -/
theorem revisedAt_cons_start {first : Replacement}
    (later : ∀ replacement ∈ replaced, first.span.start < replacement.span.start) :
    revisedAt tokens omitted (first :: replaced) first.span.start =
      first.text ++ if first.span.contains first.span.start then [] else
        revisedAt tokens omitted replaced first.span.start := by
  have absent : insertedAt replaced first.span.start = [] :=
    insertedAt_eq_nil fun replacement mem => Nat.ne_of_gt (later replacement mem)
  have inserted : insertedAt (first :: replaced) first.span.start = first.text := by
    rw [insertedAt] at absent ⊢
    rw [List.flatMap_cons, if_pos rfl, absent, List.append_nil]
  rw [revisedAt, revisedAt, inserted, absent, List.any_cons, List.nil_append]
  cases first.span.contains first.span.start <;> simp

/-- The pass puts the text of the first replaced span in its place. -/
theorem revisedFrom_replacement (first : Replacement) (within : first.span.stop ≤ tokens.length)
    (later : ∀ replacement ∈ replaced,
      first.span.start < replacement.span.start ∧ first.span.stop ≤ replacement.span.start) :
    revisedFrom omitted (first :: replaced) first.span.start (tokens.drop first.span.start) =
      first.text ++ revisedFrom omitted replaced first.span.stop (tokens.drop first.span.stop) := by
  have proper := first.span.start_le_stop
  have here : revisedAt tokens omitted (first :: replaced) first.span.start =
      first.text ++ if first.span.contains first.span.start then [] else
        revisedAt tokens omitted replaced first.span.start :=
    revisedAt_cons_start fun replacement mem => (later replacement mem).1
  rw [revisedFrom_eq (by omega), revisedFrom_eq within,
    show tokens.length + 1 - first.span.start = (tokens.length - first.span.start) + 1 by omega,
    List.range'_succ, List.flatMap_cons, here, List.append_assoc]
  congr 1
  rcases Nat.lt_or_eq_of_le proper with lt | empty
  · have split := List.range'_append_1 (s := first.span.start + 1)
      (m := first.span.stop - (first.span.start + 1)) (n := tokens.length + 1 - first.span.stop)
    rw [show first.span.start + 1 + (first.span.stop - (first.span.start + 1)) = first.span.stop
        by omega, show first.span.stop - (first.span.start + 1) +
        (tokens.length + 1 - first.span.stop) = tokens.length - first.span.start by omega] at split
    have inner : (List.range' (first.span.start + 1)
        (first.span.stop - (first.span.start + 1))).flatMap
          (revisedAt tokens omitted (first :: replaced)) = [] := by
      rw [List.flatMap_eq_nil_iff]
      intro place mem
      have inside := List.mem_range'_1.mp mem
      exact revisedAt_cons_of_inside (by omega) (by omega) fun replacement among =>
        (later replacement among).2
    rw [if_pos (Span.contains_iff.mpr ⟨Nat.le_refl _, lt⟩), List.nil_append, ← split,
      List.flatMap_append, inner, List.nil_append]
    refine List.flatMap_congr fun place mem => ?_
    have inside := List.mem_range'_1.mp mem
    exact revisedAt_cons_of_behind (by omega) inside.1
  · have uncovered : ¬ first.span.contains first.span.start = true := by
      rw [Span.contains_iff]
      omega
    rw [if_neg uncovered, ← empty,
      show tokens.length + 1 - first.span.start = (tokens.length - first.span.start) + 1 by omega,
      List.range'_succ, List.flatMap_cons]
    congr 1
    refine List.flatMap_congr fun place mem => ?_
    have inside := List.mem_range'_1.mp mem
    exact revisedAt_cons_of_behind (by omega) (by omega)

/-! ## Placing entries in their order -/

/-- Entries that stand behind a place, in their order and apart from what is left out. -/
structure InOrder (document : Document) (removed : List Span) (place : Nat) (later : List Entry)
    (kept : List Span) : Prop where
  spans? : later.map Entry.span? = kept.map some
  precede : kept.Pairwise Span.Precedes
  ahead : ∀ span ∈ kept, place ≤ span.start
  within : ∀ span ∈ kept, span.stop ≤ document.tokens.length
  clear : ∀ span ∈ kept, ∀ place, span.contains place = true →
    ∀ other ∈ removed, other.contains place = false

variable {document : Document} {removed kept spans : List Span} {later : List Entry} {entry : Entry}
  {span : Span} {place : Nat} {progress : Progress}

theorem InOrder.tail (inOrder : InOrder document removed place (entry :: later) (span :: kept)) :
    InOrder document removed span.stop later kept where
  spans? := (List.cons.inj inOrder.spans?).2
  precede := (List.pairwise_cons.mp inOrder.precede).2
  ahead next mem := ((List.pairwise_cons.mp inOrder.precede).1 next mem).2
  within next mem := inOrder.within next (List.mem_cons_of_mem _ mem)
  clear next mem := inOrder.clear next (List.mem_cons_of_mem _ mem)

theorem InOrder.gap_eq (inOrder : InOrder document removed place later kept) (mem : span ∈ kept) :
    gap document.tokens removed span.start span.stop = span.textIn document.tokens := by
  refine gap_eq_textBetween document.tokens fun place low high other among => ?_
  exact inOrder.clear span mem place (Span.contains_iff.mpr ⟨low, high⟩) other among

theorem deferredSpans_eq_nil {start stop : Nat}
    (ahead : ∀ next ∈ later.filterMap Entry.span?, stop < next.start) :
    deferredSpans tokens later start stop = [] := by
  rw [deferredSpans, List.map_eq_nil_iff, List.filter_eq_nil_iff]
  intro next mem inside
  rw [Bool.and_eq_true, decide_eq_true_eq, decide_eq_true_eq] at inside
  have behind := ahead next mem
  have proper := next.start_le_stop
  omega

/-- An entry in its order is led up to by the gap in front of it. -/
theorem leadOf_inOrder
    (inOrder : InOrder document removed progress.place (entry :: later) (span :: kept))
    (sourced : progress.afterFresh = false) :
    leadOf document removed progress span later =
      gap document.tokens removed progress.place span.start := by
  have ahead := inOrder.ahead span List.mem_cons_self
  have none : deferredSpans document.tokens later progress.place span.start = [] := by
    refine deferredSpans_eq_nil fun next mem => ?_
    rw [filterMap_span? inOrder.tail.spans?] at mem
    exact ((List.pairwise_cons.mp inOrder.precede).1 next mem).1
  unfold leadOf
  rw [if_neg (Nat.not_lt.mpr ahead)]
  dsimp only
  rw [none, List.append_nil, sourced, Bool.false_and]
  rfl

section Placing

variable (spans? : document.asRead.entries.map Entry.span? = spans.map some)
  (precede : spans.Pairwise Span.Precedes)
include spans? precede

theorem body_of_placeSourced (stands : entry.span? = some span) :
    (placeSourced document removed progress entry span later).1.body =
      document.rendering entry := by
  unfold placeSourced Document.rendering
  rw [stands]
  dsimp only
  by_cases read : entry ∈ document.asRead.entries
  · rw [if_pos ((isUntouched_iff spans? precede stands).mpr read), if_pos read]
  · rw [if_neg fun untouched => read ((isUntouched_iff spans? precede stands).mp untouched),
      if_neg read]

/-- What one entry in its order does. -/
theorem place_inOrder
    (inOrder : InOrder document removed progress.place (entry :: later) (span :: kept))
    (sourced : progress.afterFresh = false) :
    Layout.place document removed progress entry later =
      (⟨gap document.tokens removed progress.place span.start, document.rendering entry⟩,
        ⟨span.stop, progress.edited || decide (entry ∉ document.asRead.entries), false⟩) := by
  have stands : entry.span? = some span := (List.cons.inj inOrder.spans?).1
  have ahead := inOrder.ahead span List.mem_cons_self
  have proper := span.start_le_stop
  have untouched : (!isUntouched document.asRead entry span) =
      decide (entry ∉ document.asRead.entries) := by
    rw [Bool.eq_iff_iff, Bool.not_eq_true', decide_eq_true_iff, ← Bool.not_eq_true,
      isUntouched_iff spans? precede stands]
  have body : (placeSourced document removed progress entry span later).1.body =
      document.rendering entry := body_of_placeSourced spans? precede stands
  have lead := leadOf_inOrder inOrder sourced
  unfold Layout.place
  rw [stands]
  refine Prod.ext ?_ ?_
  · rw [← lead, ← body]
    rfl
  · change Progress.mk _ _ _ = _
    rw [Nat.max_eq_right (by omega), decide_eq_false (Nat.not_lt.mpr ahead), Bool.or_false,
      untouched]

theorem placeAll_inOrder
    (inOrder : InOrder document removed progress.place (entry :: later) (span :: kept))
    (sourced : progress.afterFresh = false) :
    placeAll document removed progress (entry :: later) =
      let rest := placeAll document removed
        ⟨span.stop, progress.edited || decide (entry ∉ document.asRead.entries), false⟩ later
      (⟨gap document.tokens removed progress.place span.start, document.rendering entry⟩ :: rest.1,
        rest.2) := by
  rw [placeAll, place_inOrder spans? precede inOrder sourced]

end Placing

theorem span_mem_of_replacement (kept? : later.map Entry.span? = kept.map some)
    {replacement : Replacement} (mem : replacement ∈ later.filterMap document.replacement?) :
    replacement.span ∈ kept := by
  obtain ⟨entry, among, found⟩ := List.mem_filterMap.mp mem
  unfold Document.replacement? at found
  split at found
  next => cases found
  next =>
    obtain ⟨span, stands, rfl⟩ := Option.map_eq_some_iff.mp found
    rw [← filterMap_span? kept?]
    exact List.mem_filterMap.mpr ⟨entry, among, stands⟩

section Placing

variable (spans? : document.asRead.entries.map Entry.span? = spans.map some)
  (precede : spans.Pairwise Span.Precedes)
include spans? precede

/-- Laying out entries in their order, up to the end of the source, is one pass over the tokens. -/
theorem text_of_placeAll (inOrder : InOrder document removed progress.place later kept)
    (sourced : progress.afterFresh = false) (within : progress.place ≤ document.tokens.length) :
    textOf (placeAll document removed progress later).1 ++
        gap document.tokens removed (placeAll document removed progress later).2.place
          document.tokens.length =
      revisedFrom removed (later.filterMap document.replacement?) progress.place
        (document.tokens.drop progress.place) := by
  induction later generalizing progress kept with
  | nil =>
      rw [List.filterMap_nil, revisedFrom_gap within (Nat.le_refl _) (by simp), List.drop_length]
      simp [placeAll, textOf, revisedFrom, insertedAt]
  | cons entry later ih =>
      cases kept with
      | nil => cases inOrder.spans?
      | cons span kept =>
          have stands : entry.span? = some span := (List.cons.inj inOrder.spans?).1
          have ahead := inOrder.ahead span List.mem_cons_self
          have proper := span.start_le_stop
          have inside := inOrder.within span List.mem_cons_self
          have behind : ∀ replacement ∈ later.filterMap document.replacement?,
              span.Precedes replacement.span := fun replacement mem =>
            (List.pairwise_cons.mp inOrder.precede).1 _
              (span_mem_of_replacement inOrder.tail.spans? mem)
          have rest := @ih kept ⟨span.stop, progress.edited ||
            decide (entry ∉ document.asRead.entries), false⟩ inOrder.tail rfl inside
          rw [placeAll_inOrder spans? precede inOrder sourced]
          dsimp only at rest ⊢
          rw [textOf, List.flatMap_cons, ← textOf, List.append_assoc, List.append_assoc, rest]
          by_cases read : entry ∈ document.asRead.entries
          · have same : document.rendering entry =
                gap document.tokens removed span.start span.stop := by
              rw [inOrder.gap_eq List.mem_cons_self, Document.rendering, stands]
              exact if_pos read
            have unchanged : document.replacement? entry = none := if_pos read
            rw [List.filterMap_cons_none unchanged, same,
              revisedFrom_gap ahead (by omega) fun replacement mem =>
              (Nat.le_of_lt (behind replacement mem).1),
              revisedFrom_gap proper inside fun replacement mem => (behind replacement mem).2]
          · have changed : document.replacement? entry = some ⟨span, document.rendering entry⟩ := by
              rw [Document.replacement?, if_neg read, Document.rendering, stands]
              exact congrArg (fun text => some (Replacement.mk span text)) (if_neg read).symm
            have front : ∀ replacement ∈ (⟨span, document.rendering entry⟩ ::
                later.filterMap document.replacement?), span.start ≤ replacement.span.start := by
              intro replacement mem
              rcases List.mem_cons.mp mem with rfl | mem
              · exact Nat.le_refl _
              · exact Nat.le_of_lt (behind replacement mem).1
            rw [List.filterMap_cons_some changed, revisedFrom_gap ahead (by omega) front,
              revisedFrom_replacement ⟨span, document.rendering entry⟩ inside behind]

/-- The source is used up to the end of the last entry. -/
theorem place_of_placeAll (inOrder : InOrder document removed progress.place later kept)
    (sourced : progress.afterFresh = false) :
    (placeAll document removed progress later).2.place =
      (kept.getLast?.map Span.stop).getD progress.place := by
  induction later generalizing progress kept with
  | nil =>
      cases kept with
      | nil => rfl
      | cons => cases inOrder.spans?
  | cons entry later ih =>
      cases kept with
      | nil => cases inOrder.spans?
      | cons span kept =>
          have rest := @ih kept ⟨span.stop, progress.edited ||
            decide (entry ∉ document.asRead.entries), false⟩ inOrder.tail rfl
          rw [placeAll_inOrder spans? precede inOrder sourced]
          dsimp only at rest ⊢
          rw [rest]
          cases kept with
          | nil => rfl
          | cons next kept => rfl

/-- The text counts as edited when it did before or when an entry was changed. -/
theorem edited_of_placeAll (inOrder : InOrder document removed progress.place later kept)
    (sourced : progress.afterFresh = false) :
    (placeAll document removed progress later).2.edited =
      (progress.edited || decide (∃ entry ∈ later, entry ∉ document.asRead.entries)) := by
  induction later generalizing progress kept with
  | nil => simp [placeAll]
  | cons entry later ih =>
      cases kept with
      | nil => cases inOrder.spans?
      | cons span kept =>
          have rest := @ih kept ⟨span.stop, progress.edited ||
            decide (entry ∉ document.asRead.entries), false⟩ inOrder.tail rfl
          rw [placeAll_inOrder spans? precede inOrder sourced]
          dsimp only at rest ⊢
          rw [rest, Bool.or_assoc]
          congr 1
          simp

end Placing

end Layout

end DocComment
