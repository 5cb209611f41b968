import DocComment.Text.Basic

/-!
# Searching and substituting

Every search tries the suffixes of a text from the left.  `substituteAll` applies
a rule at every place where it fits; a place inside an earlier match is not
tried again.
-/

namespace DocComment

namespace Text

/-- The first answer that a partial function gives on a suffix of the text. -/
def firstSuffix? {α : Type} (rule : Text → Option α) : Text → Option α
  | [] => rule []
  | c :: rest =>
      match rule (c :: rest) with
      | some answer => some answer
      | none => firstSuffix? rule rest

/--
The text in front of the first suffix that a rule accepts, and what the rule
gives for the rest of that suffix.
-/
def splitFirstBy? (rule : Text → Option Text) : Text → Option (Text × Text)
  | [] => (rule []).map fun behind => ([], behind)
  | c :: rest =>
      match rule (c :: rest) with
      | some behind => some ([], behind)
      | none => (splitFirstBy? rule rest).map fun found => (c :: found.1, found.2)

/-- The text in front of and behind the first occurrence of `needle`. -/
def splitFirst? (needle text : Text) : Option (Text × Text) :=
  splitFirstBy? (after? needle) text

/-- The text in front of and behind the last occurrence of `needle`. -/
def splitLast? (needle : Text) : Text → Option (Text × Text)
  | [] => if needle.isEmpty then some ([], []) else none
  | c :: rest =>
      match splitLast? needle rest with
      | some found => some (c :: found.1, found.2)
      | none => (after? needle (c :: rest)).map fun behind => ([], behind)

/-- Whether `needle` occurs in the text. -/
def occurs (needle text : Text) : Bool :=
  (splitFirst? needle text).isSome

/-- Put a text in the place of every occurrence of a character. -/
def replaceChar (target : Char) (replacement text : Text) : Text :=
  text.flatMap fun c => if c = target then replacement else [c]

/--
Substitute in a text from the left.  A rule that fits at a suffix names how many
characters it takes and what stands in their place; `skip` counts the
characters that an earlier match has taken.
-/
def substituteFrom (rule : Text → Option (Nat × Text)) : Nat → Text → Text
  | _, [] => []
  | skip + 1, _ :: rest => substituteFrom rule skip rest
  | 0, c :: rest =>
      match rule (c :: rest) with
      | some (taken + 1, replacement) => replacement ++ substituteFrom rule taken rest
      | _ => c :: substituteFrom rule 0 rest

/-- Apply a rule at every place of a text where it fits. -/
def substituteAll (rule : Text → Option (Nat × Text)) (text : Text) : Text :=
  substituteFrom rule 0 text

end Text

end DocComment
