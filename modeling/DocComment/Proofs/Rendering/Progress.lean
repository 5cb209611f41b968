import DocComment.Proofs.Rendering.Filling

/-!
# How far a layout has come

Entries may be moved, copied, taken out and put in between.  What laying them
out keeps up in any case is `Layout.Reached`: every span lies in front of the
place that has been reached, or an entry with it comes later, or it is left
out.  So the gaps between entries hold nothing of the entries that were read.
-/

namespace DocComment

open Token

namespace Layout

/-- A place that a layout has reached, and the entries that come later. -/
structure Reached (document : Document) (removed spans : List Span) (opening close : Nat)
    (progress : Progress) (later : List Entry) : Prop where
  known : ∀ span ∈ later.filterMap Entry.span?, span ∈ spans
  place_le : progress.place ≤ close
  started : progress.place = 0 ∧ progress.afterFresh = false ∨ opening < progress.place
  /-- Every span was passed, comes later or is left out. -/
  covered : ∀ span ∈ spans, span.stop ≤ progress.place ∨ span ∈ later.filterMap Entry.span? ∨
    ∃ floor, widen document.tokens floor span ∈ removed
  /-- The place cuts no span. -/
  uncut : ∀ span ∈ spans, span.stop ≤ progress.place ∨ progress.place ≤ span.start
  /-- Behind the opening marker, the place is the end of a span. -/
  anchored : progress.place ≤ opening + 1 ∨ ∃ span ∈ spans, span.stop = progress.place
  /-- What is left out belongs to no entry that comes later. -/
  spared : ∀ other ∈ removed, ∃ span ∈ spans, span ∉ later.filterMap Entry.span? ∧
    ∃ floor, other = widen document.tokens floor span

variable {document : Document} {removed spans : List Span} {opening close : Nat}
  {progress : Progress} {entry : Entry} {span : Span} {later : List Entry}

section Tiles

variable (tiles : Tiles document.tokens opening close spans)
include tiles

/-- An entry without a span brings the layout behind the opening marker. -/
theorem reached_fresh (fresh : entry.span? = none)
    (reached : Reached document removed spans opening close progress (entry :: later))
    (edited afterFresh : Bool) :
    Reached document removed spans opening close
      ⟨if progress.place = 0 then opening + 1 else progress.place, edited, afterFresh⟩ later := by
  obtain ⟨known, place_le, started, covered, uncut, anchored, spared⟩ := reached
  rw [List.filterMap_cons_none fresh] at known covered spared
  by_cases start : progress.place = 0
  · have beyond : ∀ span ∈ spans, opening + 1 ≤ span.start := fun span mem =>
      (tiles.inside span mem).1
    rw [if_pos start]
    refine ⟨known, tiles.opening_lt_close, Or.inr (Nat.lt_succ_self _), fun span mem => ?_,
      fun span mem => Or.inr (beyond span mem), Or.inl (Nat.le_refl _), spared⟩
    exact (covered span mem).imp_left fun passed => by
      dsimp only
      omega
  · rw [if_neg start]
    exact ⟨known, place_le, Or.inr (started.resolve_left fun none => start none.1), covered, uncut,
      anchored, spared⟩

/-- An entry with a span brings the layout behind that span. -/
theorem reached_sourced (stands : entry.span? = some span)
    (reached : Reached document removed spans opening close progress (entry :: later))
    (edited afterFresh : Bool) :
    Reached document removed spans opening close
      ⟨max progress.place span.stop, edited, afterFresh⟩ later := by
  obtain ⟨known, place_le, started, covered, uncut, anchored, spared⟩ := reached
  rw [List.filterMap_cons_some stands] at known covered spared
  have mem := known span List.mem_cons_self
  have inside := tiles.inside span mem
  have proper := span.start_le_stop
  refine ⟨fun other comes => known other (List.mem_cons_of_mem _ comes), by
    dsimp only; omega, Or.inr (by dsimp only; omega), fun other among => ?_, fun other among => ?_,
    ?_, fun other left => ?_⟩
  · rcases covered other among with passed | comes | left
    · exact Or.inl (by dsimp only; omega)
    · rcases List.mem_cons.mp comes with rfl | comes
      · exact Or.inl (by dsimp only; omega)
      · exact Or.inr (Or.inl comes)
    · exact Or.inr (Or.inr left)
  · dsimp only
    by_cases same : other = span
    · subst same
      omega
    · rcases Span.precedes_or_precedes tiles.precede among mem same with ⟨_, stop⟩ | ⟨_, stop⟩
      · omega
      · have cut := uncut other among
        omega
  · dsimp only
    rcases uncut span mem with behind | ahead
    · rw [Nat.max_eq_left behind]
      exact anchored
    · exact Or.inr ⟨span, mem, by omega⟩
  · obtain ⟨third, here, absent, widened⟩ := spared other left
    exact ⟨third, here, fun comes => absent (List.mem_cons_of_mem _ comes), widened⟩

/-! ## Gaps -/

/-- In front of an entry in its order, everything that belongs to other entries is left out. -/
theorem exists_omitted (stands : entry.span? = some span)
    (reached : Reached document removed spans opening close progress (entry :: later))
    {other : Span} (among : other ∈ spans) {place : Nat} (low : progress.place ≤ place)
    (high : place < span.start) (holds : other.contains place = true) :
    ∃ omitted ∈ removed ++ deferredSpans document.tokens later progress.place span.start,
      omitted.contains place = true := by
  have mem : span ∈ spans := reached.known span (by simp [stands])
  obtain ⟨front, back⟩ := Span.contains_iff.mp holds
  have within := tiles.start_le among
  have reaches (floor : Nat) : (widen document.tokens floor other).contains place = true := by
    rw [Span.contains_iff, widen_stop floor within]
    have widened := widen_start_le floor within
    omega
  rcases reached.covered other among with passed | comes | ⟨floor, left⟩
  · omega
  · rw [List.filterMap_cons_some stands, List.mem_cons] at comes
    rcases comes with rfl | comes
    · omega
    · have start := (reached.uncut other among).resolve_left (by omega)
      have stop : other.stop ≤ span.start := by
        have distinct : other ≠ span := by
          rintro rfl
          omega
        rcases Span.precedes_or_precedes tiles.precede among mem distinct with precedes | precedes
        · exact precedes.2
        · have later := precedes.1
          omega
      refine ⟨widen document.tokens progress.place other, List.mem_append_right _ ?_, reaches _⟩
      refine List.mem_map.mpr ⟨other, List.mem_filter.mpr ⟨comes, ?_⟩, rfl⟩
      rw [Bool.and_eq_true, decide_eq_true_eq, decide_eq_true_eq]
      exact ⟨start, stop⟩
  · exact ⟨_, List.mem_append_left _ left, reaches floor⟩

omit tiles in
/-- What is left out in front of an entry is the widened span of another entry, unless the
entry's own span is empty and comes once more. -/
theorem exists_widen_of_left (stands : entry.span? = some span)
    (reached : Reached document removed spans opening close progress (entry :: later))
    {omitted : Span} (left : omitted ∈ removed ++
      deferredSpans document.tokens later progress.place span.start) :
    ∃ third ∈ spans, (third = span → span ∈ later.filterMap Entry.span? ∧
        span.stop ≤ span.start) ∧
      ∃ floor, omitted = widen document.tokens floor third := by
  rcases List.mem_append.mp left with gone | deferred
  · obtain ⟨third, here, absent, floor, rfl⟩ := reached.spared omitted gone
    refine ⟨third, here, ?_, floor, rfl⟩
    rintro rfl
    exact absurd (by simp [stands]) absent
  · obtain ⟨third, listed, rfl⟩ := List.mem_map.mp deferred
    obtain ⟨comes, between⟩ := List.mem_filter.mp listed
    rw [Bool.and_eq_true, decide_eq_true_eq, decide_eq_true_eq] at between
    refine ⟨third, reached.known third ?_, ?_, _, rfl⟩
    · rw [List.filterMap_cons_some stands]
      exact List.mem_cons_of_mem _ comes
    · rintro rfl
      exact ⟨comes, between.2⟩

/-- The gap in front of an entry is a filling from every place on that the layout has reached. -/
theorem filling_of_gap (stands : entry.span? = some span)
    (reached : Reached document removed spans opening close progress (entry :: later)) {start : Nat}
    (low : progress.place ≤ start) (ahead : start ≤ span.start) :
    Filling spans start span.start ((placesOutside (removed ++
      deferredSpans document.tokens later progress.place span.start)
        start span.start).map .token) :=
  Filling.gap ahead fun _ among _ front high holds =>
    exists_omitted tiles stands reached among (Nat.le_trans low front) high holds

/-! ## The rest of the source -/

theorem tailStart_le (reached : Reached document removed spans opening close progress later) :
    progress.place ≤ tailStart document.tokens progress ∧
      tailStart document.tokens progress ≤ close := by
  have reach := reached.place_le
  unfold tailStart
  split
  next doubled =>
    simp only [Bool.and_eq_true, beq_iff_eq] at doubled
    refine ⟨Nat.le_succ _, ?_⟩
    rcases Nat.lt_or_eq_of_le reach with front | same
    · exact front
    · have kind := tiles.closes _ (same ▸ doubled.1.2)
      cases kind
  next => exact ⟨Nat.le_refl _, reach⟩

/-- No token of an entry is in the rest of the source. -/
theorem filling_of_rest (reached : Reached document removed spans opening close progress [])
    {start stop : Nat} (low : progress.place ≤ start) (proper : start ≤ stop) :
    Filling spans start stop ((placesOutside removed start stop).map .token) := by
  refine Filling.gap proper fun span mem place front high holds => ?_
  obtain ⟨before, behind⟩ := Span.contains_iff.mp holds
  rcases reached.covered span mem with passed | comes | ⟨floor, left⟩
  · omega
  · simp at comes
  · refine ⟨_, left, ?_⟩
    have within := tiles.start_le mem
    rw [Span.contains_iff, widen_stop floor within]
    have widened := widen_start_le floor within
    omega

/-- Only what stands in front of the closing marker is left out. -/
theorem not_contains_close (reached : Reached document removed spans opening close progress later)
    {place : Nat} (behind : close ≤ place) :
    ∀ other ∈ removed, other.contains place = false := by
  intro other left
  obtain ⟨span, mem, _, floor, rfl⟩ := reached.spared other left
  have inside := tiles.inside span mem
  rw [← Bool.not_eq_true, Span.contains_iff, widen_stop floor (tiles.start_le mem)]
  omega

end Tiles

/-- Before the first entry every span comes later or is left out. -/
theorem reached_start (document : Document) {spans : List Span} (opening close : Nat)
    (precede : spans.Pairwise Span.Precedes)
    (known : ∀ span ∈ document.comment.entries.filterMap Entry.span?, span ∈ spans) :
    Reached document (leftOut document spans) spans opening close
      (start (leftOut document spans)) document.comment.entries := by
  refine ⟨known, Nat.zero_le _, Or.inl ⟨rfl, rfl⟩, fun span mem => Or.inr ?_,
    fun _ _ => Or.inr (Nat.zero_le _), Or.inl (Nat.zero_le _), fun other left => ?_⟩
  · cases carried : carries document.comment.entries span with
    | true => exact Or.inl (carries_iff.mp carried)
    | false =>
        have listed : span ∈ spans.filter fun span => !carries document.comment.entries span :=
          List.mem_filter.mpr ⟨mem, by rw [carried]; rfl⟩
        obtain ⟨floor, _, widened⟩ :=
          exists_widen_of_mem document.tokens 0 (precede.filter _) listed
        exact Or.inr ⟨floor, widened⟩
  · obtain ⟨span, listed, floor, _, widened⟩ := mem_widenAll (precede.filter _) left
    obtain ⟨mem, absent⟩ := List.mem_filter.mp listed
    refine ⟨span, mem, fun carried => ?_, floor, widened⟩
    rw [carries_iff.mpr carried] at absent
    cases absent

end Layout

end DocComment
