/-!
# Texts

A text is the list of its characters.  Reading and printing work on the list
itself, so every fact about them is a fact about lists; strings appear only
where a program meets its surroundings.
-/

namespace DocComment

/-- A text is the list of its characters. -/
abbrev Text := List Char

namespace Text

/-- What stands behind `opening`, when the text starts with it. -/
def after? : Text → Text → Option Text
  | [], text => some text
  | _ :: _, [] => none
  | first :: opening, c :: text => if first = c then after? opening text else none

/-- Whether the text starts with `opening`. -/
def startsWith (opening text : Text) : Bool :=
  (after? opening text).isSome

/-- Join texts with a separator between neighbours. -/
def join (separator : Text) : List Text → Text
  | [] => []
  | [last] => last
  | first :: rest => first ++ separator ++ join separator rest

/-- Join the parts that are not empty with single spaces. -/
def joinParts (parts : List Text) : Text :=
  join [' '] (parts.filter fun part => !part.isEmpty)

/-- The text with its ASCII letters in lower case. -/
def lowerAscii (text : Text) : Text :=
  text.map Char.toLower

/-- Whether two texts differ at most in the case of ASCII letters. -/
def sameIgnoringCase (first second : Text) : Bool :=
  lowerAscii first == lowerAscii second

/-- The decimal digits of a number. -/
def ofNat (number : Nat) : Text :=
  Nat.toDigits 10 number

/-- The text between two backquotes. -/
def ticked (text : Text) : Text :=
  '\x60' :: text ++ ['\x60']

/-! ## Opening and rest -/

theorem eq_append_of_after? {opening text rest : Text}
    (found : after? opening text = some rest) : text = opening ++ rest := by
  induction opening generalizing text with
  | nil => simpa [after?] using found
  | cons first opening ih =>
      cases text with
      | nil => simp [after?] at found
      | cons c text =>
          by_cases same : first = c
          · simp only [after?, same, if_true] at found
            simp [same, ih found]
          · simp [after?, same] at found

theorem after?_append (opening rest : Text) :
    after? opening (opening ++ rest) = some rest := by
  induction opening with
  | nil => rfl
  | cons first opening ih => simpa [after?] using ih

end Text

end DocComment
