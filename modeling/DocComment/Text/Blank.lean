import DocComment.Text.Basic

/-!
# Blank characters

Two classes of white space.  `isBlank` is the Unicode property White_Space and
decides where words end and what trimming removes.  `isPadding` holds of the
space and the tab alone, the only characters that a line may be indented with.
-/

namespace DocComment

/-- The Unicode property White_Space. -/
def isBlank (c : Char) : Bool :=
  let code := c.toNat
  (9 ≤ code && code ≤ 13) || code == 0x20 || code == 0x85 || code == 0xA0 || code == 0x1680 ||
    (0x2000 ≤ code && code ≤ 0x200A) || code == 0x2028 || code == 0x2029 || code == 0x202F ||
    code == 0x205F || code == 0x3000

/-- A space or a tab. -/
def isPadding (c : Char) : Bool :=
  c == ' ' || c == '\t'

/-- Core's white space is blank. -/
theorem isBlank_of_isWhitespace {c : Char} (white : c.isWhitespace = true) :
    isBlank c = true := by
  simp only [Char.isWhitespace, Bool.or_eq_true, decide_eq_true_eq] at white
  rcases white with ((white | white) | white) | white <;> subst white <;> decide

/-- Padding is blank. -/
theorem isBlank_of_isPadding {c : Char} (padding : isPadding c = true) :
    isBlank c = true := by
  simp only [isPadding, Bool.or_eq_true, beq_iff_eq] at padding
  rcases padding with padding | padding <;> subst padding <;> decide

namespace Text

/-! ## Trimming -/

/-- The text without the characters of a class at its end. -/
def dropEndWhile (p : Char → Bool) (text : Text) : Text :=
  (text.reverse.dropWhile p).reverse

/-- The text without the characters of a class at either end. -/
def dropAround (p : Char → Bool) (text : Text) : Text :=
  dropEndWhile p (text.dropWhile p)

/-- The text without the blanks in front. -/
def trimStart (text : Text) : Text :=
  text.dropWhile isBlank

/-- The text without the blanks at its end. -/
def trimEnd (text : Text) : Text :=
  dropEndWhile isBlank text

/-- The text without the blanks at either end. -/
def trim (text : Text) : Text :=
  dropAround isBlank text

/-- Whether every character is blank. -/
def isAllBlank (text : Text) : Bool :=
  text.all isBlank

/-- The text without one space in front, if there is one. -/
def dropSpace : Text → Text
  | ' ' :: rest => rest
  | text => text

/-! ## Words and lines -/

/-- The parts of a text between the characters of a class, empty ones included. -/
def splitWhere (p : Char → Bool) : Text → List Text
  | [] => [[]]
  | c :: rest =>
      if p c then [] :: splitWhere p rest
      else
        match splitWhere p rest with
        | [] => [[c]]
        | part :: parts => (c :: part) :: parts

/-- The parts of a text between its blanks. -/
def words (text : Text) : List Text :=
  (splitWhere isBlank text).filter fun word => !word.isEmpty

/-- The words of a text with a single space between neighbours. -/
def collapse (text : Text) : Text :=
  join [' '] (words text)

/-- The lines of a text without their line feeds. -/
def lines (text : Text) : List Text :=
  splitWhere (· == '\n') text

end Text

end DocComment
