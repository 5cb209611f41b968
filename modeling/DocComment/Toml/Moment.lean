import DocComment.Text.Blank
import DocComment.Text.Numeral

/-!
# TOML moments

Dates, times of day and points in time, with their written forms.  Reading
accepts more than one form of a moment; `Moment.render` writes one of them.
-/

namespace DocComment

namespace Toml

/-- A day of the calendar. -/
structure Date where
  year : Nat
  month : Nat
  day : Nat
deriving DecidableEq, Repr, Inhabited

/-- A time of day. -/
structure Clock where
  hour : Nat
  minute : Nat
  /-- The seconds, which may be left out. -/
  second : Option Nat
  /-- The fraction of a second in billionths, if one was written. -/
  billionths : Option Nat
deriving DecidableEq, Repr, Inhabited

/-- The distance of a local time from universal time. -/
inductive Offset where
  | universal
  | minutes (ahead : Int)
deriving DecidableEq, Repr, Inhabited

/-- A moment. -/
inductive Moment where
  | day (date : Date)
  | time (clock : Clock)
  | point (date : Date) (clock : Clock) (offset : Option Offset)
deriving DecidableEq, Repr, Inhabited

/-! ## Dates -/

/-- The number that two digits make. -/
def twoDigits? (tens units : Char) : Option Nat :=
  if tens.isDigit && units.isDigit then some (Text.valueOf 10 [tens, units]) else none

/-- The days of a month. -/
def daysIn (year month : Nat) : Nat :=
  if month = 2 then
    if year % 4 = 0 && (year % 100 != 0 || year % 400 = 0) then 29 else 28
  else if month = 4 || month = 6 || month = 9 || month = 11 then 30
  else 31

namespace Date

/-- The date at the start of a text, and what follows it. -/
def read? : Text → Option (Date × Text)
  | a :: b :: c :: d :: '-' :: e :: f :: '-' :: g :: h :: rest => do
      let year := 100 * (← twoDigits? a b) + (← twoDigits? c d)
      let month ← twoDigits? e f
      let day ← twoDigits? g h
      if 1 ≤ month && month ≤ 12 && 1 ≤ day && day ≤ daysIn year month then
        some (⟨year, month, day⟩, rest)
      else none
  | _ => none

/-- The written form of a date. -/
def render (date : Date) : Text :=
  Text.padded 4 date.year ++ '-' :: Text.padded 2 date.month ++ '-' :: Text.padded 2 date.day

end Date

/-! ## Times -/

/-- The hours and minutes at the start of a text, and what follows them. -/
def hourMinute? : Text → Option ((Nat × Nat) × Text)
  | a :: b :: ':' :: c :: d :: rest => do
      let hour ← twoDigits? a b
      let minute ← twoDigits? c d
      if hour ≤ 23 && minute ≤ 59 then some ((hour, minute), rest) else none
  | _ => none

/-- The fraction of a second at the start of a text, if there is one, and what follows it. -/
def fraction? : Text → Option (Option Nat × Text)
  | '.' :: rest =>
      match rest.takeWhile Char.isDigit with
      | [] => none
      | digits =>
          let nine := (digits ++ List.replicate 9 '0').take 9
          some (some (Text.valueOf 10 nine), rest.dropWhile Char.isDigit)
  | text => some (none, text)

namespace Clock

/-- The time at the start of a text, and what follows it. -/
def read? (text : Text) : Option (Clock × Text) := do
  let ((hour, minute), behind) ← hourMinute? text
  match behind with
  | ':' :: a :: b :: rest =>
      let second ← twoDigits? a b
      if second ≤ 60 then
        let (billionths, rest) ← fraction? rest
        some (⟨hour, minute, some second, billionths⟩, rest)
      else none
  | ':' :: _ => none
  | rest => some (⟨hour, minute, none, none⟩, rest)

/-- The written form of a fraction, without the zeros at its end but with one digit at least. -/
def renderFraction (billionths : Nat) : Text :=
  match Text.dropEndWhile (· == '0') (Text.padded 9 billionths) with
  | [] => ['.', '0']
  | digits => '.' :: digits

/-- The written form of a time. -/
def render (clock : Clock) : Text :=
  Text.padded 2 clock.hour ++ ':' :: Text.padded 2 clock.minute ++
    (clock.second.map fun second => ':' :: Text.padded 2 second).getD [] ++
    (clock.billionths.map renderFraction).getD []

end Clock

/-! ## Offsets -/

namespace Offset

/-- The offset that hours and minutes write, which must end the text. -/
def ofHourMinute? (sign : Int) (text : Text) : Option Offset :=
  match hourMinute? text with
  | some ((hour, minute), []) => some (.minutes (sign * (60 * hour + minute : Nat)))
  | _ => none

/-- The offset that a text writes. -/
def read? : Text → Option Offset
  | ['Z'] | ['z'] => some .universal
  | '+' :: rest => ofHourMinute? 1 rest
  | '-' :: rest => ofHourMinute? (-1) rest
  | _ => none

/-- The written form of an offset.  No distance has a plus sign. -/
def render : Offset → Text
  | .universal => ['Z']
  | .minutes ahead =>
      (if ahead < 0 then '-' else '+') :: Text.padded 2 (ahead.natAbs / 60) ++
        ':' :: Text.padded 2 (ahead.natAbs % 60)

end Offset

/-! ## Moments -/

namespace Moment

/-- The point in time that a date and a text behind its delimiter write. -/
def point? (date : Date) (text : Text) : Option Moment :=
  match Clock.read? text with
  | some (clock, []) => some (.point date clock none)
  | some (clock, rest) => (Offset.read? rest).map fun offset => .point date clock (some offset)
  | none => none

/-- The moment that a word writes. -/
def ofWord? (word : Text) : Option Moment :=
  match Date.read? word with
  | some (date, []) => some (.day date)
  | some (date, c :: rest) => if c == 'T' || c == 't' || c == ' ' then point? date rest else none
  | none =>
      match Clock.read? word with
      | some (clock, []) => some (.time clock)
      | _ => none

/-- Whether a word writes a date alone. -/
def isDay (word : Text) : Bool :=
  match Date.read? word with
  | some (_, []) => true
  | _ => false

/-- The written form of a moment. -/
def render : Moment → Text
  | .day date => date.render
  | .time clock => clock.render
  | .point date clock offset =>
      date.render ++ 'T' :: clock.render ++ (offset.map Offset.render).getD []

end Moment

end Toml

end DocComment
