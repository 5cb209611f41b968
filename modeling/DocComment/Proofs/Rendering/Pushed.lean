import DocComment.Proofs.RoundTrip

/-!
# Entries that are pushed with a span

An entry that is pushed behind those of a comment may carry a span of another
source.  When no gap between the entries holds that span, the entries in front
are laid out as they were read (`placeAll_push`).  When it begins within them,
the pushed entry is written on a line of its own behind the last one
(`laidOut_push`).
-/

namespace DocComment

open Token

/-- Spans in their order end no later than the last one. -/
theorem Span.stop_le_of_getLast? {spans : List Span} (precede : spans.Pairwise Span.Precedes)
    {last : Span} (final : spans.getLast? = some last) : ∀ span ∈ spans, span.stop ≤ last.stop := by
  obtain ⟨front, rfl⟩ := List.getLast?_eq_some_iff.mp final
  intro span mem
  rcases List.mem_append.mp mem with mem | mem
  · have precedes := (List.pairwise_append.mp precede).2.2 span mem last List.mem_cons_self
    exact Nat.le_trans precedes.2 last.start_le_stop
  · rw [List.mem_singleton.mp mem]

namespace Layout

variable {document : Document} {removed kept spans : List Span} {later : List Entry}
  {entry item : Entry}
  {span last pushed : Span} {place : Nat} {progress : Progress}

/-! ## Spans that no gap holds -/

/-- Where the pushed span ends in front of another one, it does not begin behind all before that. -/
def Anchored (place : Nat) (kept : List Span) (pushed : Span) : Prop :=
  ∀ span ∈ kept, place ≤ pushed.start → pushed.stop ≤ span.start →
    ∃ other ∈ kept, other.Precedes span ∧ pushed.start < other.stop

namespace Anchored

theorem tail (anchored : Anchored place (span :: kept) pushed) (ahead : place ≤ span.start) :
    Anchored span.stop kept pushed := by
  intro next mem low high
  have proper := span.start_le_stop
  obtain ⟨other, among, precedes, inside⟩ :=
    anchored next (List.mem_cons_of_mem _ mem) (by omega) high
  rcases List.mem_cons.mp among with rfl | among
  · omega
  · exact ⟨other, among, precedes, inside⟩

/-- The gap in front of the first span does not hold the pushed one. -/
theorem outside (anchored : Anchored place (span :: kept) pushed)
    (precede : (span :: kept).Pairwise Span.Precedes) :
    ¬ (place ≤ pushed.start ∧ pushed.stop ≤ span.start) := by
  rintro ⟨low, high⟩
  obtain ⟨other, among, before, -⟩ := anchored span List.mem_cons_self low high
  rcases List.mem_cons.mp among with rfl | among
  · exact Nat.lt_irrefl _ before.1
  · exact Nat.lt_asymm before.1 ((List.pairwise_cons.mp precede).1 other among).1

/-- A span that overlaps one of the others is held by no gap. -/
theorem of_overlap (precede : kept.Pairwise Span.Precedes) (mem : span ∈ kept)
    (low : span.start < pushed.stop)
    (high : pushed.start < span.stop) : Anchored place kept pushed := by
  intro next among _ front
  refine ⟨span, mem, ?_, high⟩
  rcases Span.precedes_or_precedes precede mem among (by rintro rfl; omega) with before | behind
  · exact before
  · have proper := next.start_le_stop
    obtain ⟨-, apart⟩ := behind
    omega

end Anchored

/-- A span that the gap does not hold is not left out of it. -/
theorem deferredSpans_append (tokens : List Token) (stands : item.span? = some pushed)
    {start stop : Nat}
    (outside : ¬ (start ≤ pushed.start ∧ pushed.stop ≤ stop)) (later : List Entry) :
    deferredSpans tokens (later ++ [item]) start stop = deferredSpans tokens later start stop := by
  have none :
      [pushed].filter (fun span => decide (start ≤ span.start) && decide (span.stop ≤ stop)) =
      [] := by
    rw [List.filter_eq_nil_iff]
    intro span mem inside
    rw [List.mem_singleton.mp mem, Bool.and_eq_true, decide_eq_true_eq, decide_eq_true_eq] at inside
    exact outside inside
  rw [deferredSpans, List.filterMap_append, List.filter_append, List.filterMap_cons_some stands,
    List.filterMap_nil, none, List.append_nil]
  rfl

/-! ## Placing the entries and the pushed one -/

theorem place_append
    (inOrder : InOrder document removed progress.place (entry :: later) (span :: kept))
    (anchored : Anchored progress.place (span :: kept) pushed) (stands : item.span? = some pushed) :
    Layout.place document removed progress entry (later ++ [item]) =
      Layout.place document removed progress entry later := by
  have same : entry.span? = some span := (List.cons.inj inOrder.spans?).1
  have deferred :=
    deferredSpans_append document.tokens stands (anchored.outside inOrder.precede) later
  have lead : leadOf document removed progress span (later ++ [item]) =
      leadOf document removed progress span later := by
    unfold leadOf
    rw [deferred]
  unfold Layout.place
  rw [same]
  dsimp only
  unfold placeSourced
  rw [lead]

section Placing

variable (spans? : document.asRead.entries.map Entry.span? = spans.map some)
  (precede : spans.Pairwise Span.Precedes)
include spans? precede

/-- The pushed entry is placed behind the others, which it leaves as they are. -/
theorem placeAll_append (inOrder : InOrder document removed progress.place later kept)
    (sourced : progress.afterFresh = false) (anchored : Anchored progress.place kept pushed)
    (stands : item.span? = some pushed) :
    placeAll document removed progress (later ++ [item]) =
      let front := placeAll document removed progress later
      let behind := Layout.place document removed front.2 item []
      (front.1 ++ [behind.1], behind.2) := by
  induction later generalizing progress kept with
  | nil => rfl
  | cons entry later ih =>
      cases kept with
      | nil => cases inOrder.spans?
      | cons span kept =>
          have next := @ih kept ⟨span.stop, progress.edited ||
            decide (entry ∉ document.asRead.entries), false⟩ inOrder.tail rfl
              (anchored.tail (inOrder.ahead span List.mem_cons_self))
          rw [List.cons_append, placeAll, place_append inOrder anchored stands,
            place_inOrder spans? precede inOrder sourced]
          dsimp only
          rw [next, placeAll_inOrder spans? precede inOrder sourced]
          rfl

variable (within : ∀ span ∈ spans, span.stop ≤ document.tokens.length)
include within

/-- The entries that were read are laid out as their source, up to the end of the last one. -/
theorem placeAll_asRead :
    let front := placeAll document [] (start []) document.asRead.entries
    front.2.place = (spans.getLast?.map Span.stop).getD 0 ∧
      textOf front.1 = Token.textOf (document.tokens.take front.2.place) := by
  intro front
  have inOrder : InOrder document [] (start []).place document.asRead.entries spans :=
    ⟨spans?, precede, fun _ _ => Nat.zero_le _, within, by simp⟩
  have text := text_of_placeAll spans? precede inOrder rfl (Nat.zero_le _)
  have untouched : document.asRead.entries.filterMap document.replacement? = [] := by
    rw [List.filterMap_eq_nil_iff]
    exact fun entry mem => if_pos mem
  rw [untouched, revisedFrom_nil, gap_nil, textBetween, List.take_length] at text
  refine ⟨place_of_placeAll spans? precede inOrder rfl, List.append_cancel_right (text.trans ?_)⟩
  rw [← textOf_append, List.take_append_drop]
  rfl

/-- A pushed entry that begins within the others is written on a line of its own behind them. -/
theorem laidOut_push (entries : document.comment.entries = document.asRead.entries ++ [item])
    (final : spans.getLast? = some last) (anchored : Anchored 0 spans pushed)
    (stands : item.span? = some pushed)
    (begins : pushed.start < last.stop) (ends : pushed.stop ≤ last.stop)
    (single : ¬ (kindAt? document.tokens last.stop = some .lineBreak ∧
      kindAt? document.tokens (last.stop + 1) = some .lineBreak)) :
    document.laidOut [] =
      (Token.textOf (document.tokens.take last.stop) ++ (linePrefix ++ (document.rendering item ++
      Token.textOf (document.tokens.drop last.stop))), true) := by
  have inOrder : InOrder document [] (start []).place document.asRead.entries spans :=
    ⟨spans?, precede, fun _ _ => Nat.zero_le _, within, by simp⟩
  obtain ⟨place, text⟩ := placeAll_asRead spans? precede within
  rw [final, Option.map_some, Option.getD_some] at place
  rw [place] at text
  have all := placeAll_append spans? precede inOrder rfl anchored stands
  generalize placeAll document [] (start []) document.asRead.entries = front at place text all
  have behind : Layout.place document [] front.2 item [] =
      (⟨linePrefix, document.rendering item⟩, ⟨last.stop, true, false⟩) := by
    have body : (placeSourced document [] front.2 item pushed []).1.body =
        document.rendering item :=
      body_of_placeSourced spans? precede stands
    unfold Layout.place
    rw [stands]
    dsimp only
    rw [← body]
    unfold placeSourced leadOf
    rw [place, if_pos begins, decide_eq_true begins, Nat.max_eq_left ends, Bool.or_true]
    rfl
  unfold Document.laidOut
  rw [entries, all]
  dsimp only
  rw [behind]
  have start : tailStart document.tokens ⟨last.stop, true, false⟩ = last.stop := by
    rw [tailStart, if_neg]
    rw [Bool.true_and, Bool.and_eq_true, beq_iff_eq, beq_iff_eq]
    exact single
  rw [tail, start, gap_nil, textBetween, List.take_length]
  refine Prod.ext ?_ rfl
  rw [textOf, List.flatMap_append, ← textOf, text]
  simp only [List.flatMap_cons, List.flatMap_nil, List.append_assoc, List.append_nil]

end Placing

end Layout

end DocComment
