import DocComment.Proofs.Rendering.Gap
import DocComment.Proofs.Text.Search
import DocComment.Rendering.Cleanup

/-!
# Markers

A text that begins as a comment keeps its opening, and a closing marker is
added only where none occurs (`completeMarkers_eq`).
-/

namespace DocComment

open Token

/-- A text that begins with an opening marker behind some padding. -/
def Text.Opens (text : Text) : Prop :=
  ∃ padding rest : Text, (∀ c ∈ padding, isPadding c = true) ∧
    text = padding ++ (Cleanup.opener ++ rest)

namespace Token

variable {text : Text} {place : Nat}

theorem textOf_take_isPadding (padded : Padded (scan text) 0 place) :
    ∀ c ∈ textOf ((scan text).take place), isPadding c = true := by
  have whole : textOf ((scan text).take place) = Layout.gap (scan text) [] 0 place := by
    rw [Layout.gap_nil, textBetween, List.drop_zero]
  rw [whole]
  exact isPadding_of_mem_gap padded

/-- A text whose first token behind padding is an opening marker begins with that marker. -/
theorem opens_of_kindAt? (padded : Padded (scan text) 0 place)
    (opens : kindAt? (scan text) place = some .opening) : text.Opens := by
  obtain ⟨token, found, kind, cut⟩ := isPiece_of_kindAt? opens (by decide)
  have split := text_eq_of_getElem? found
  rw [cut.text_of_opening kind] at split
  exact ⟨_, _, textOf_take_isPadding padded, split⟩

/-- A text with the same tokens in front begins with the same opening marker. -/
theorem opens_of_scan_eq {other : Text} {stop : Nat} {more : List Token}
    (cut : scan other = (scan text).take stop ++ more) (padded : Padded (scan text) 0 place)
    (opens : kindAt? (scan text) place = some .opening) (low : place < stop) :
    other.Opens := by
  have same : ∀ index ≤ place, kindAt? (scan other) index = kindAt? (scan text) index := by
    intro index within
    have inside : index < ((scan text).take stop).length := by
      rw [List.length_take, Nat.lt_min]
      have known := lt_length_of_kindAt? opens
      omega
    rw [cut, kindAt?, kindAt?, List.getElem?_append_left inside,
      List.getElem?_take_of_lt (by omega)]
  refine opens_of_kindAt? ⟨Nat.zero_le _, fun index low high => ?_⟩
    ((same place (Nat.le_refl _)).trans opens)
  exact (same index (Nat.le_of_lt high)).trans (padded.padding index low high)

end Token

namespace Text

theorem trimStart_of_opens {text padding rest : Text} (blank : ∀ c ∈ padding, isPadding c = true)
    (split : text = padding ++ (Cleanup.opener ++ rest)) :
    trimStart text = Cleanup.opener ++ rest := by
  rw [split, trimStart, List.dropWhile_append_of_pos fun c mem =>
    isBlank_of_isPadding (blank c mem)]
  exact List.dropWhile_cons_of_neg (by decide)

theorem Opens.startsWith {text : Text} (opens : text.Opens) :
    startsWith ['/', '*'] (trimStart text) = true := by
  obtain ⟨padding, rest, blank, split⟩ := opens
  rw [trimStart_of_opens blank split, startsWith_iff]
  exact ⟨'*' :: rest, rfl⟩

theorem Opens.ne_nil {text : Text} (opens : text.Opens) : text ≠ [] := by
  obtain ⟨padding, rest, _, rfl⟩ := opens
  simp [Cleanup.opener]

end Text

namespace Cleanup

variable {text : Text}

theorem completeOpening_of_opens (opens : text.Opens) : completeOpening text = text := by
  have begins : hasOpening text = true := by
    rw [hasOpening, opens.startsWith, Bool.or_true, Bool.true_or]
  exact if_pos begins

/-- What is added behind a text without a closing marker. -/
theorem completeMarkers_eq (opens : text.Opens) :
    completeMarkers text =
      if closer <:+: text then text
      else if '\n' ∈ text then text ++ ['\n', ' '] ++ closer else text ++ ' ' :: closer := by
  rw [completeMarkers, completeOpening_of_opens opens, completeClosing, opens.startsWith,
    Bool.true_and]
  by_cases closes : closer <:+: text
  · rw [Text.occurs_iff.mpr closes, if_pos closes]
    rfl
  · rw [Text.occurs_eq_false_iff.mpr closes, if_neg closes, Bool.not_false, if_pos rfl]
    simp only [List.contains_iff_mem]

theorem completeMarkers_of_closes (opens : text.Opens) (closes : closer <:+: text) :
    completeMarkers text = text :=
  (completeMarkers_eq opens).trans (if_pos closes)

theorem prefix_completeMarkers (opens : text.Opens) : text <+: completeMarkers text := by
  rw [completeMarkers_eq opens]
  split
  · exact List.prefix_rfl
  · split
    · rw [List.append_assoc]
      exact List.prefix_append _ _
    · exact List.prefix_append _ _

/-- A text that was not edited is only completed. -/
theorem finish_unedited (opens : text.Opens) : finish false false text = completeMarkers text := by
  rw [finish, if_neg (by simpa using opens.ne_nil)]
  rfl

end Cleanup

end DocComment
