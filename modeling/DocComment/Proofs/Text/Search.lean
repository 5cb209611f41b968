import DocComment.Text.Search
import Mathlib.Data.List.Infix

/-!
# What searching finds

The searches of a text in the terms of lists: a text starts with its prefixes
and its infixes occur in it, and what is found splits the text.
-/

namespace DocComment

namespace Text

variable {opening needle text : Text}

theorem after?_eq_some_iff {rest : Text} :
    after? opening text = some rest ↔ text = opening ++ rest := by
  constructor
  · exact eq_append_of_after?
  · rintro rfl
    exact after?_append opening rest

theorem startsWith_iff : startsWith opening text = true ↔ opening <+: text := by
  rw [startsWith, Option.isSome_iff_exists]
  constructor
  · rintro ⟨rest, found⟩
    exact ⟨rest, (eq_append_of_after? found).symm⟩
  · rintro ⟨rest, rfl⟩
    exact ⟨rest, after?_append opening rest⟩

theorem isSome_splitFirstBy?_after? :
    (splitFirstBy? (after? needle) text).isSome = true ↔ needle <:+: text := by
  induction text with
  | nil =>
      rw [splitFirstBy?, Option.isSome_map, ← startsWith, startsWith_iff, List.prefix_nil,
        List.infix_nil]
  | cons c rest ih =>
      rw [splitFirstBy?, List.infix_cons_iff, ← startsWith_iff, startsWith, ← ih]
      cases after? needle (c :: rest) with
      | none => simp
      | some behind => simp

theorem eq_append_of_splitFirstBy? {rule : Text → Option Text} {before behind : Text}
    (found : splitFirstBy? rule text = some (before, behind)) :
    ∃ fitting, text = before ++ fitting ∧ rule fitting = some behind := by
  induction text generalizing before with
  | nil =>
      obtain ⟨_, fits, same⟩ := Option.map_eq_some_iff.mp found
      cases same
      exact ⟨[], rfl, fits⟩
  | cons c rest ih =>
      rw [splitFirstBy?] at found
      split at found
      next fits =>
        cases found
        exact ⟨c :: rest, rfl, fits⟩
      next =>
        obtain ⟨_, later, same⟩ := Option.map_eq_some_iff.mp found
        cases same
        obtain ⟨fitting, split, fits⟩ := ih later
        exact ⟨fitting, congrArg (c :: ·) split, fits⟩

theorem occurs_iff : occurs needle text = true ↔ needle <:+: text :=
  isSome_splitFirstBy?_after?

theorem occurs_eq_false_iff : occurs needle text = false ↔ ¬ needle <:+: text := by
  rw [← Bool.not_eq_true, occurs_iff]

/-! ## The last occurrence -/

theorem splitLast?_eq_none {c : Char} {rest : Text} (absent : c ∉ text) :
    splitLast? (c :: rest) text = none := by
  induction text with
  | nil => rfl
  | cons d text ih =>
      obtain ⟨other, later⟩ := not_or.mp fun mem => absent (List.mem_cons.mpr mem)
      rw [splitLast?, ih later, after?, if_neg other]
      rfl

/-- What is searched for occurs last where its first character does not come again. -/
theorem splitLast?_append {c : Char} {rest behind : Text} (absent : c ∉ rest ++ behind)
    (text : Text) :
    splitLast? (c :: rest) (text ++ (c :: rest ++ behind)) = some (text, behind) := by
  induction text with
  | nil =>
      have here : after? (c :: rest) (c :: (rest ++ behind)) = some behind :=
        after?_append (c :: rest) behind
      rw [List.nil_append, List.cons_append, splitLast?, splitLast?_eq_none absent, here]
      rfl
  | cons d text ih => rw [List.cons_append, splitLast?, ih]

/-! ## Substituting -/

section Substituting

variable {rule : Text → Option (Nat × Text)} {first second : Text}

/-- A substitution acts apart on two texts when no match crosses from one into the other. -/
theorem substituteFrom_append
    (short : ∀ part taken replacement, rule part = some (taken, replacement) → taken ≤ part.length)
    (cut : ∀ part, part ≠ [] → part <:+ first → rule (part ++ second) = rule part)
    {skip : Nat} (within : skip ≤ first.length) :
    substituteFrom rule skip (first ++ second) =
      substituteFrom rule skip first ++ substituteFrom rule 0 second := by
  induction first generalizing skip with
  | nil =>
      rw [Nat.le_zero.mp within]
      cases second <;> rfl
  | cons c rest ih =>
      have later : ∀ part, part ≠ [] → part <:+ rest → rule (part ++ second) = rule part :=
        fun part proper ends => cut part proper (ends.trans (List.suffix_cons c rest))
      cases skip with
      | succ skip => exact ih later (Nat.le_of_succ_le_succ within)
      | zero =>
          have here : rule (c :: (rest ++ second)) = rule (c :: rest) :=
            cut (c :: rest) (List.cons_ne_nil c rest) (List.suffix_refl _)
          rw [List.cons_append, substituteFrom, substituteFrom, here]
          cases found : rule (c :: rest) with
          | none => exact congrArg (c :: ·) (ih later (Nat.zero_le _))
          | some result =>
              obtain ⟨taken, replacement⟩ := result
              cases taken with
              | zero => exact congrArg (c :: ·) (ih later (Nat.zero_le _))
              | succ taken =>
                  have reach := short _ _ _ found
                  rw [List.length_cons] at reach
                  change replacement ++ _ = replacement ++ _ ++ _
                  rw [ih later (Nat.le_of_succ_le_succ reach), List.append_assoc]

theorem substituteAll_append
    (short : ∀ part taken replacement, rule part = some (taken, replacement) → taken ≤ part.length)
    (cut : ∀ part, part ≠ [] → part <:+ first → rule (part ++ second) = rule part) :
    substituteAll rule (first ++ second) = substituteAll rule first ++ substituteAll rule second :=
  substituteFrom_append short cut (Nat.zero_le _)

/-- Where a rule fits nowhere, nothing is substituted. -/
theorem substituteAll_eq_self (never : ∀ part, part <:+ text → rule part = none) :
    substituteAll rule text = text := by
  induction text with
  | nil => rfl
  | cons c rest ih =>
      have here := never (c :: rest) (List.suffix_refl _)
      have later := ih fun part ends => never part (ends.trans (List.suffix_cons c rest))
      rw [substituteAll, substituteFrom, here]
      exact congrArg (c :: ·) later

theorem substituteAll_cons_of_none {c : Char} {rest : Text} (none : rule (c :: rest) = none) :
    substituteAll rule (c :: rest) = c :: substituteAll rule rest := by
  rw [substituteAll, substituteFrom, none]
  rfl

theorem substituteAll_cons_of_some {c : Char} {rest replacement : Text} {taken : Nat}
    (found : rule (c :: rest) = some (taken + 1, replacement)) :
    substituteAll rule (c :: rest) = replacement ++ substituteFrom rule taken rest := by
  rw [substituteAll, substituteFrom, found]

theorem substituteFrom_drop {skip : Nat} (within : skip ≤ text.length) :
    substituteFrom rule skip text = substituteAll rule (text.drop skip) := by
  induction text generalizing skip with
  | nil => cases skip <;> rfl
  | cons c rest ih =>
      cases skip with
      | zero => rfl
      | succ skip => exact ih (Nat.le_of_succ_le_succ within)

end Substituting

end Text

end DocComment
