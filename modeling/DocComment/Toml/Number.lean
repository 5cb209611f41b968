import DocComment.Text.Numeral
import DocComment.Text.Search

/-!
# TOML numbers

Integers, numbers with a fraction or an exponent, and the special numbers.  A
word is read to its exact value.  Whether there is a value that a machine can
hold is a separate question, which `isBounded` answers.
-/

namespace DocComment

namespace Toml

/-- A number. -/
inductive Number where
  | integer (value : Int)
  /-- The product of `mantissa` and a power of ten. -/
  | decimal (mantissa exponent : Int)
  /-- Infinite, or not a number. -/
  | special
  /-- The mark of a radix without a digit behind it. -/
  | missing
deriving DecidableEq, Repr, Inhabited

namespace Number

/-! ## Written form -/

/-- Whether a text is a run of digits with single underscores between some of them. -/
def isGrouped (p : Char → Bool) : Text → Bool
  | [] => false
  | [c] => p c
  | c :: '_' :: rest => p c && isGrouped p rest
  | c :: rest => p c && isGrouped p rest

/-- The digits of a run without its underscores. -/
def digitsOf (run : Text) : Text :=
  run.filter (· != '_')

/-- Whether a text has a minus sign in front. -/
def isNegative : Text → Bool
  | '-' :: _ => true
  | _ => false

/-- The text without a sign in front. -/
def dropSign : Text → Text
  | '+' :: rest => rest
  | '-' :: rest => rest
  | text => text

/-- A value with the sign that stands in front of a text. -/
def signed (text : Text) (value : Nat) : Int :=
  if isNegative text then -value else value

/-- Whether a text is a decimal number without a sign and without needless zeros in front. -/
def isWhole : Text → Bool
  | ['0'] => true
  | '0' :: _ => false
  | text => isGrouped Char.isDigit text

/-- A digit of an octal number. -/
def isOctDigit (c : Char) : Bool :=
  '0' ≤ c && c ≤ '7'

/-- A digit of a binary number. -/
def isBinDigit (c : Char) : Bool :=
  c == '0' || c == '1'

/-- The integer that a run of digits writes in a radix.  The run may be empty, but then it has no value. -/
def inRadix? (radix : Nat) (p : Char → Bool) (run : Text) : Option Number :=
  if run.isEmpty then some .missing
  else if isGrouped p run then some (.integer (Text.valueOf radix (digitsOf run)))
  else none

/-- The integer that a word writes. -/
def integer? : Text → Option Number
  | '0' :: 'x' :: run => inRadix? 16 Text.isHexDigit run
  | '0' :: 'o' :: run => inRadix? 8 isOctDigit run
  | '0' :: 'b' :: run => inRadix? 2 isBinDigit run
  | word =>
      let bare := dropSign word
      if isWhole bare then some (.integer (signed word (Text.valueOf 10 (digitsOf bare)))) else none

/-- The number that a whole part, a fraction and an exponent write. -/
def scaled (word whole fraction : Text) (exponent : Int) : Number :=
  let behindPoint := digitsOf fraction
  .decimal (signed word (Text.valueOf 10 (digitsOf whole ++ behindPoint)))
    (exponent - behindPoint.length)

/-- The exponent that stands behind its mark, or zero where there is no mark. -/
def exponent? : Text → Option Int
  | [] => some 0
  | _ :: written =>
      let run := dropSign written
      if isGrouped Char.isDigit run then some (signed written (Text.valueOf 10 (digitsOf run)))
      else none

/-- A mark in front of an exponent. -/
def isExponentMark (c : Char) : Bool :=
  c == 'e' || c == 'E'

/-- The number with a fraction or an exponent that a word writes. -/
def decimal? (word : Text) : Option Number := do
  let bare := dropSign word
  let mantissa := bare.takeWhile fun c => !isExponentMark c
  let mark := bare.dropWhile fun c => !isExponentMark c
  let exponent ← exponent? mark
  match Text.splitFirst? ['.'] mantissa with
  | some (whole, fraction) =>
      if isWhole whole && isGrouped Char.isDigit fraction then
        some (scaled word whole fraction exponent)
      else none
  | none =>
      if isWhole mantissa && !mark.isEmpty then some (scaled word mantissa [] exponent) else none

/-- The special number that a word names. -/
def special? (word : Text) : Option Number :=
  let bare := dropSign word
  if bare == "inf".toList || bare == "nan".toList then some .special else none

/-- The number that a word writes. -/
def ofWord? (word : Text) : Option Number :=
  (integer? word).or ((special? word).or (decimal? word))

/-! ## Bounds -/

/-- The least number that is rounded to infinity where 64 bits hold a number. -/
def overflow : Nat :=
  Nat.pow 2 1024 - Nat.pow 2 970

/--
Whether a mantissa times a power of ten stays below the overflow.  The value
lies below the power of ten with exponent `scale`, and not below a tenth of it,
so only one scale needs a comparison.
-/
def isBelowOverflow (mantissa : Nat) (exponent : Int) : Bool :=
  let scale := (Text.ofNat mantissa).length + exponent
  if mantissa = 0 || scale ≤ 308 then true
  else if 309 < scale then false
  else mantissa * Nat.pow 10 exponent.toNat < overflow * Nat.pow 10 (-exponent).toNat

/-- Whether 128 bits hold an integer, with or without a sign. -/
def fitsInteger (value : Int) : Bool :=
  -(Nat.pow 2 127 : Nat) ≤ value && value < (Nat.pow 2 128 : Nat)

/--
Whether a number can be held: an integer in 128 bits, with or without a sign,
and any other number as a finite one of 64 bits.  A missing one cannot.
-/
def isBounded : Number → Bool
  | .integer value => fitsInteger value
  | .decimal mantissa exponent => isBelowOverflow mantissa.natAbs exponent
  | .special => true
  | .missing => false

end Number

end Toml

end DocComment
