import FenceSync.Text.Blank
/-!
# Quoted strings of TOML

Basic strings with escapes, literal strings, and the forms of both that span lines. Each reader is
given the text after the opening quotes and returns the string and the text after the closing ones.
-/
namespace FenceSync.Toml

/-- A control character that may not stand in a string or comment; a tab may. -/
def isControl (c : Char) : Bool := (c.toNat < 0x20 && c != '\t') || c.toNat = 0x7f

def hexValue? (c : Char) : Option Nat :=
  if '0' ≤ c ∧ c ≤ '9' then some (c.toNat - '0'.toNat)
  else if 'a' ≤ c ∧ c ≤ 'f' then some (c.toNat - 'a'.toNat + 10)
  else if 'A' ≤ c ∧ c ≤ 'F' then some (c.toNat - 'A'.toNat + 10)
  else none

/-- The character of a code point in hexadecimal. -/
def codePoint? (digits : Text) : Option Char :=
  (digits.mapM hexValue?).bind fun values =>
    let n := values.foldl (fun n d => n * 16 + d) 0
    if n.isValidChar then some (Char.ofNat n) else none

/-- The characters that a backslash and one letter stand for. -/
def simpleEscape? : Char → Option Char
  | 'b' => some '\x08'
  | 't' => some '\t'
  | 'n' => some '\n'
  | 'f' => some '\x0c'
  | 'r' => some '\r'
  | 'e' => some '\x1b'
  | '"' => some '"'
  | '\\' => some '\\'
  | _ => none

/-- The number of digits of an escape by code point. -/
def escapeDigits : Char → Option Nat
  | 'x' => some 2
  | 'u' => some 4
  | 'U' => some 8
  | _ => none

/-- The character of an escape, given after its backslash, and the rest. -/
def escape? : Text → Option (Char × Text)
  | [] => none
  | c :: t =>
    match simpleEscape? c, escapeDigits c with
    | some d, _ => some (d, t)
    | none, some n => if t.length < n then none else (codePoint? (t.take n)).map (·, t.drop n)
    | none, none => none

theorem length_escape? {t rest : Text} {c : Char} (h : escape? t = some (c, rest)) :
    rest.length < t.length := by
  cases t with
  | nil => simp [escape?] at h
  | cons d t =>
    simp only [escape?] at h
    split at h
    · cases h; simp
    · split at h
      · simp at h
      · obtain ⟨_, -, he⟩ := Option.map_eq_some_iff.1 h
        cases he
        simp only [List.length_drop, List.length_cons]
        omega
    · simp at h

def basicString? : Text → Option (Text × Text)
  | [] => none
  | '"' :: t => some ([], t)
  | '\\' :: t =>
    match _escape : escape? t with
    | some (c, rest) => (basicString? rest).map fun (s, r) => (c :: s, r)
    | none => none
  | c :: t => if isControl c then none else (basicString? t).map fun (s, r) => (c :: s, r)
termination_by t => t.length
decreasing_by
  · have := length_escape? _escape
    simp only [List.length_cons]
    omega
  · simp

def literalString? : Text → Option (Text × Text)
  | [] => none
  | '\'' :: t => some ([], t)
  | c :: t => if isControl c then none else (literalString? t).map fun (s, r) => (c :: s, r)

/-- Up to two quotes may stand before the three that close a string. -/
def closingQuotes (quote : Char) (t : Text) : Text × Text :=
  let extra := (t.takeWhile (· = quote)).take 2
  (extra, t.drop extra.length)

/-- Where a reader of a basic string over lines stands. -/
inductive Continuation
  /-- In the string. -/
  | none
  /-- After a backslash that must be the last character of its line but for blanks. -/
  | awaited
  /-- Between the lines that a backslash joins. -/
  | skipping
deriving DecidableEq, Repr

/-- Whether a backslash in front of the text can be the last character of its line. -/
def joinsLines (t : Text) : Bool :=
  match t.head? with
  | some c => Text.isIndent c || c = '\r' || c = '\n'
  | none => false

def basicLines? (at_ : Continuation) : Text → Option (Text × Text)
  | [] => .none
  | '\r' :: '\n' :: t =>
    if at_ = .none then (basicLines? .none t).map fun (s, r) => ('\r' :: '\n' :: s, r)
    else basicLines? .skipping t
  | '\n' :: t =>
    if at_ = .none then (basicLines? .none t).map fun (s, r) => ('\n' :: s, r)
    else basicLines? .skipping t
  | '"' :: '"' :: '"' :: t =>
    if at_ = .awaited then .none else some (closingQuotes '"' t)
  | '\\' :: t =>
    if at_ = .awaited then .none
    else match _escape : escape? t with
      | some (c, rest) => (basicLines? .none rest).map fun (s, r) => (c :: s, r)
      | none => if joinsLines t then basicLines? .awaited t else .none
  | c :: t =>
    if at_ ≠ .none ∧ Text.isIndent c then basicLines? at_ t
    else if at_ = .awaited ∨ isControl c then .none
    else (basicLines? .none t).map fun (s, r) => (c :: s, r)
termination_by t => t.length
decreasing_by
  all_goals simp only [List.length_cons]
  any_goals omega
  have := length_escape? _escape
  omega

def literalLines? : Text → Option (Text × Text)
  | [] => none
  | '\r' :: '\n' :: t => (literalLines? t).map fun (s, r) => ('\r' :: '\n' :: s, r)
  | '\n' :: t => (literalLines? t).map fun (s, r) => ('\n' :: s, r)
  | '\'' :: '\'' :: '\'' :: t => some (closingQuotes '\'' t)
  | c :: t => if isControl c then none else (literalLines? t).map fun (s, r) => (c :: s, r)

/-- A line ending right after the opening quotes is not part of the string. -/
def dropFirstBreak : Text → Text
  | '\r' :: '\n' :: t => t
  | '\n' :: t => t
  | t => t

/-- Any string, quotes included, and the rest. -/
def string? : Text → Option (Text × Text)
  | '"' :: '"' :: '"' :: t => basicLines? .none (dropFirstBreak t)
  | '"' :: t => basicString? t
  | '\'' :: '\'' :: '\'' :: t => literalLines? (dropFirstBreak t)
  | '\'' :: t => literalString? t
  | _ => none

end FenceSync.Toml
