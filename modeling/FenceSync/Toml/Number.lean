import FenceSync.Text.Basic
import FenceSync.Text.Digit
/-!
# Numbers of TOML

Which texts are integers and floats. A number is recognised by its shape alone; whether it can be
held is told apart, since a number that nobody reads may be of any size. Next to an underscore of an
integer a letter from `a` to `f` passes for a digit, whatever stands between, but a decimal integer
with anything except digits cannot be held.
-/
namespace FenceSync.Toml

def isHexDigit (c : Char) : Bool :=
  Text.isAsciiDigit c || ('a' ≤ c && c ≤ 'f') || ('A' ≤ c && c ≤ 'F')

def digitValue (c : Char) : Nat :=
  if c.isDigit then c.toNat - '0'.toNat else c.toLower.toNat - 'a'.toNat + 10

def digitsValue (base : Nat) (ds : Text) : Nat := ds.foldl (fun n c => n * base + digitValue c) 0

def withoutSign : Text → Bool × Text
  | '-' :: t => (true, t)
  | '+' :: t => (false, t)
  | t => (false, t)

def withoutUnderscores (t : Text) : Text := t.filter (· != '_')

/-- Every underscore stands between two digits. -/
def underscoresFit (isDigit : Char → Bool) (t : Text) : Bool :=
  let groups := t.splitOn '_'
  (groups.tail.all fun g => g.head?.any isDigit) &&
    groups.dropLast.all fun g => g.getLast?.any isDigit

/-- An integer in one of the bases that have a mark: whether it fits 128 bits. -/
def basedInteger? (base : Nat) (isDigit : Char → Bool) (t : Text) : Option Bool :=
  let ds := withoutUnderscores t
  if ds.all isDigit && underscoresFit isHexDigit t then
    some (!ds.isEmpty && digitsValue base ds < Nat.pow 2 128)
  else none

/-- A decimal integer, of which only zero itself begins with a zero: whether it fits 128 bits. -/
def decimalInteger? (t : Text) : Option Bool :=
  let (negative, number) := withoutSign t
  let isPlain := match number.dropWhile Text.isAsciiDigit with
    | [] => !number.isEmpty
    | rest@(c :: _) => c = '_' && !rest.any fun c => c = '.' || c = 'e' || c = 'E'
  if isPlain && (number.head? != some '0' || number = ['0']) && underscoresFit isHexDigit t then
    let ds := withoutUnderscores number
    let limit := if negative then Nat.pow 2 127 + 1 else Nat.pow 2 128
    some (ds.all Text.isAsciiDigit && digitsValue 10 ds < limit)
  else none

/-- An integer: whether it fits 128 bits, with or without sign. -/
def integer? (t : Text) : Option Bool :=
  match t with
  | '0' :: 'x' :: ds => basedInteger? 16 isHexDigit ds
  | '0' :: 'o' :: ds => basedInteger? 8 (fun c => '0' ≤ c && c ≤ '7') ds
  | '0' :: 'b' :: ds => basedInteger? 2 (fun c => c = '0' || c = '1') ds
  | _ => decimalInteger? t

/-- The digits of a part of a float, at least one. -/
def digitRun? (t : Text) : Option Text :=
  let ds := withoutUnderscores t
  if !ds.isEmpty && ds.all Text.isAsciiDigit then some ds else none

/-- Digits of which the first of several is no zero. -/
def wholeDigits? (t : Text) : Option Text :=
  (digitRun? t).filter fun ds => ds.length = 1 || t.head? != some '0'

/-- An exponent: a sign and digits. -/
def exponent? (t : Text) : Option Int :=
  let (negative, ds) := withoutSign t
  (digitRun? ds).map fun ds =>
    if negative then -(digitsValue 10 ds : Int) else digitsValue 10 ds

/-- Whether `mantissa * 10 ^ exponent` rounds to a finite number of double precision. -/
def isFinite (mantissa : Text) (exponent : Int) : Bool :=
  let ds := mantissa.dropWhile (· = '0')
  let magnitude : Int := ds.length + exponent
  if ds.isEmpty || magnitude < 309 then true
  else if 310 < magnitude then false
  else
    let limit := Nat.pow 2 1024 - Nat.pow 2 970
    digitsValue 10 ds * Nat.pow 10 exponent.toNat < limit * Nat.pow 10 (-exponent).toNat

/-- The parts of a text before and after the first character that satisfies `p`. -/
def splitFirst (p : Char → Bool) (t : Text) : Text × Option Text :=
  match t.dropWhile fun c => !p c with
  | [] => (t, none)
  | _ :: rest => (t.takeWhile fun c => !p c, some rest)

/-- A float: whether it is the infinite one or a finite one, not one too great to be held. -/
def float? (t : Text) : Option Bool :=
  let number := (withoutSign t).2
  if number = "inf".toList || number = "nan".toList then some true
  else
    let (mantissa, exponentText?) := splitFirst (fun c => c = 'e' || c = 'E') number
    let (whole, fractionText?) := splitFirst (· = '.') mantissa
    let exponent? := match exponentText? with
      | none => some 0
      | some e => exponent? e
    let fraction? := match fractionText? with
      | none => some []
      | some f => digitRun? f
    match wholeDigits? whole, fraction?, exponent? with
    | some whole, some fraction, some exponent =>
      if (exponentText?.isSome || fractionText?.isSome) && underscoresFit Text.isAsciiDigit t then
        some (isFinite (whole ++ fraction) (exponent - fraction.length))
      else none
    | _, _, _ => none

/-- A number: whether it can be held. -/
def number? (t : Text) : Option Bool := (integer? t).or (float? t)

end FenceSync.Toml
