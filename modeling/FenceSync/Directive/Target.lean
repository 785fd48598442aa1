import FenceSync.Text.Blank
import FenceSync.Text.Digit
/-!
# Targets

A reference names a file, and may select lines of it by an ending such as `#L10-L20`.
-/
namespace FenceSync

/-- Lines from `first` to `last`, both included and counted from one. -/
structure LineRange where
  first : Nat
  last : Nat
deriving DecidableEq, Repr

/-- The greatest line number that can be written; greater ones mean this one. -/
def LineRange.limit : Nat := 18446744073709551615

/-- The number that a run of digits stands for. Only digits of the ASCII block have a value, a run
with any other digit counts as past every end. -/
def LineRange.number (digits : Text) : Nat :=
  if digits.all Text.isAsciiDigit then min (Text.decimal digits) limit else limit

structure Target where
  path : Text
  range : Option LineRange
deriving DecidableEq, Repr

inductive TargetError
  /-- No path can be read. -/
  | noPath
  /-- The path holds a number sign that begins no range. -/
  | malformedRange (path : Text)
deriving DecidableEq, Repr

namespace Target

/-- The digits that follow the given letters, at least one, and the rest. -/
def digitsAfter? (letters t : Text) : Option (Text × Text) :=
  (Text.after? letters t).bind fun r =>
    let digits := r.takeWhile Text.isDigit
    if digits.isEmpty then none else some (digits, r.dropWhile Text.isDigit)

/-- A range ending such as `#L10-L20`, whatever follows it. -/
def range? (t : Text) : Option LineRange :=
  (digitsAfter? ['#', 'L'] t).bind fun (first, r) =>
    (digitsAfter? ['-', 'L'] r).map fun (last, _) =>
      ⟨LineRange.number first, LineRange.number last⟩

def atLineEnd (t : Text) : Bool := t.isEmpty || t.head? == some '\n'

/-- The shortest non-empty beginning without blanks that a range or the end of the line follows. -/
def ofWord? : Text → Option Target
  | [] => none
  | c :: t =>
    if Text.isBlank c then none
    else match range? t with
      | some range => some ⟨[c], some range⟩
      | none =>
        if atLineEnd t then some ⟨[c], none⟩
        else (ofWord? t).map fun target => { target with path := c :: target.path }

/-- A target that begins here, after at most one blank character. -/
def here? : Text → Option Target
  | [] => none
  | c :: t => if Text.isBlank c then ofWord? t else ofWord? (c :: t)

def ofReference (reference : Text) : Except TargetError Target :=
  match Text.firstMatch? here? reference with
  | none => .error .noPath
  | some target =>
    if '#' ∈ target.path then .error (.malformedRange target.path) else .ok target

end Target
end FenceSync
