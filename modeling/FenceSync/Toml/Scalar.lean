import FenceSync.Text.Blank
import FenceSync.Toml.Number
import FenceSync.Toml.Value
/-!
# Unquoted scalars of TOML

Booleans, numbers, dates and times. A scalar is cut off as a whole and then recognised.
-/
namespace FenceSync.Toml

/-- The number that exactly `n` digits at the beginning stand for, and the rest. -/
def digits? (n : Nat) (t : Text) : Option (Nat × Text) :=
  let ds := t.takeWhile Text.isAsciiDigit
  if ds.length = n then some (Text.decimal ds, t.drop n) else none

def isLeapYear (year : Nat) : Bool :=
  year % 4 = 0 && (year % 100 != 0 || year % 400 = 0)

def daysInMonth (year month : Nat) : Nat :=
  match month with
  | 2 => if isLeapYear year then 29 else 28
  | 4 | 6 | 9 | 11 => 30
  | _ => 31

/-- The rest after a date. -/
def afterDate? (t : Text) : Option Text :=
  match digits? 4 t with
  | some (year, '-' :: t) =>
    match digits? 2 t with
    | some (month, '-' :: t) =>
      match digits? 2 t with
      | some (day, t) =>
        if 1 ≤ month ∧ month ≤ 12 ∧ 1 ≤ day ∧ day ≤ daysInMonth year month then some t else none
      | none => none
    | _ => none
  | _ => none

/-- The rest after the hour and minute of a clock. -/
def afterClock? (t : Text) : Option Text :=
  match digits? 2 t with
  | some (hour, ':' :: t) =>
    match digits? 2 t with
    | some (minute, t) => if hour ≤ 23 ∧ minute ≤ 59 then some t else none
    | none => none
  | _ => none

/-- The rest after a time, whose seconds may be missing and may have a fraction. -/
def afterTime? (t : Text) : Option Text :=
  match afterClock? t with
  | some (':' :: t) =>
    match digits? 2 t with
    | some (second, t) =>
      if 60 < second then none
      else match t with
        | '.' :: t =>
          if (t.takeWhile Text.isAsciiDigit).isEmpty then none
          else some (t.dropWhile Text.isAsciiDigit)
        | t => some t
    | none => none
  | rest => rest

/-- Nothing, or the offset of a zone. -/
def isOffset (t : Text) : Bool :=
  match t with
  | [] | ['Z'] | ['z'] => true
  | '+' :: t | '-' :: t => afterClock? t == some []
  | _ => false

def isMoment (t : Text) : Bool :=
  match afterDate? t with
  | some [] => true
  | some (c :: t) =>
    (c = 'T' || c = 't' || c = ' ') &&
      match afterTime? t with
      | some t => isOffset t
      | none => false
  | none => afterTime? t == some []

def scalarValue? (t : Text) : Option Value :=
  if t = "true".toList then some (.boolean true)
  else if t = "false".toList then some (.boolean false)
  else match number? t with
    | some fits => some (.number fits)
    | none => if isMoment t then some .moment else none

/-- Blanks, line endings, quotes, brackets and the signs of the grammar end a scalar. -/
def isScalarChar (c : Char) : Bool :=
  !Text.isIndent c && !"\n\r\"'#,=[]\x7b\x7d".toList.contains c

/-- A scalar and the rest. A space may stand between a date and a time. -/
def scalar? (t : Text) : Option (Value × Text) :=
  let word := t.takeWhile isScalarChar
  let rest := t.dropWhile isScalarChar
  let (word, rest) :=
    match afterDate? word, rest with
    | some [], ' ' :: c :: more =>
      if Text.isAsciiDigit c then
        (word ++ ' ' :: (c :: more).takeWhile isScalarChar, (c :: more).dropWhile isScalarChar)
      else (word, rest)
    | _, _ => (word, rest)
  (scalarValue? word).map (·, rest)

end FenceSync.Toml
