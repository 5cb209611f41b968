import DocComment.Text.Basic

/-!
# Numerals

The values of digits and of texts of digits in any radix up to sixteen.
-/

namespace DocComment

namespace Text

/-- A hexadecimal digit, in either case. -/
def isHexDigit (c : Char) : Bool :=
  c.isDigit || ('a' ≤ c && c ≤ 'f') || ('A' ≤ c && c ≤ 'F')

/-- The value of a digit. -/
def digitValue (c : Char) : Nat :=
  if c.isDigit then c.toNat - '0'.toNat
  else if 'a' ≤ c then c.toNat - 'a'.toNat + 10
  else c.toNat - 'A'.toNat + 10

/-- The value of a text of digits, the most significant one first. -/
def valueOf (radix : Nat) (digits : Text) : Nat :=
  digits.foldl (fun value c => radix * value + digitValue c) 0

/-- The value of a text of hexadecimal digits, if it has at least one digit. -/
def hexValue? (digits : Text) : Option Nat :=
  if digits.isEmpty || !digits.all isHexDigit then none else some (valueOf 16 digits)

/-- The decimal digits of a number, with zeros in front up to the given width. -/
def padded (width number : Nat) : Text :=
  let digits := ofNat number
  List.replicate (width - digits.length) '0' ++ digits

end Text

end DocComment
