import FenceSync.Glob.Basic
/-!
# Reading glob patterns

`?` and `*` stay within a name, `**` as a whole part of a path spans directories, brackets hold a
class of characters, braces hold alternatives, and a backslash takes the next character literally.
-/
namespace FenceSync.Glob

inductive Fault
  | invalidRange (low high : Char)
  | unclosedClass
  | unopenedAlternatives
  | unclosedAlternatives
  | danglingEscape
deriving DecidableEq, Repr

def Fault.message : Fault → Text
  | .invalidRange low high =>
    "invalid range; '".toList ++ [low] ++ "' > '".toList ++ [high] ++ "'".toList
  | .unclosedClass => "unclosed character class; missing ']'".toList
  | .unopenedAlternatives =>
    ("unopened alternate group; missing '\x7b' (maybe escape '\x7d' with '[\x7d]'?)").toList
  | .unclosedAlternatives =>
    ("unclosed alternate group; missing '\x7d' (maybe escape '\x7b' with '[\x7b]'?)").toList
  | .danglingEscape => "dangling '\\'".toList

/-- The message about a pattern that cannot be read. -/
def faultIn (pattern : Text) (f : Fault) : Text :=
  "error parsing glob '".toList ++ pattern ++ "': ".toList ++ f.message

/-- Reads the ranges of a class up to its closing bracket. `ranges` holds those read, the newest
first, and `opened` tells that a hyphen has opened the newest one. A bracket that comes first is
literal, and so is a hyphen that comes first or last. -/
def classRanges (ranges : List (Char × Char)) (opened : Bool) :
    Text → Except Fault (List (Char × Char) × Text)
  | [] => .error .unclosedClass
  | c :: t =>
    match ranges with
    | [] => classRanges [(c, c)] false t
    | (low, high) :: older =>
      if c = ']' then .ok ((if opened then ('-', '-') :: ranges else ranges).reverse, t)
      else if opened then
        if c < low then .error (.invalidRange low c) else classRanges ((low, c) :: older) false t
      else if c = '-' then classRanges ((low, high) :: older) true t
      else classRanges ((c, c) :: ranges) false t

/-- The class that begins after an opening bracket. -/
def readClass : Text → Except Fault (Token × Text)
  | '!' :: t | '^' :: t =>
    (classRanges [] false t).map fun (ranges, rest) => (.oneOf true ranges, rest)
  | t => (classRanges [] false t).map fun (ranges, rest) => (.oneOf false ranges, rest)

/-- What has been read of a pattern. -/
structure Reading where
  /-- The tokens of the current branch, the newest first. -/
  current : List Token
  /-- The branches of the current group before this one, the newest first. -/
  earlier : List (List Token)
  /-- The groups around the current one, the innermost first. -/
  outer : List (List Token × List (List Token))
  /-- Whether an opening bracket still begins a class. -/
  classes : Bool

namespace Reading

def start : Reading := ⟨[], [], [], true⟩

def push (r : Reading) (t : Token) : Reading := { r with current := t :: r.current }

/-- Two plain stars. -/
def pushStars (r : Reading) : Reading := (r.push .star).push .star

/-- Turns the slash before two stars into the given token, unless directories stand there. -/
def replaceLast (r : Reading) (t : Token) : Reading :=
  match r.current with
  | .leadingDirs :: _ | .everythingBelow :: _ => r
  | _ :: older => { r with current := t :: older }
  | [] => r

def openGroup (r : Reading) : Reading :=
  { r with current := [], earlier := [], outer := (r.current, r.earlier) :: r.outer }

def nextBranch (r : Reading) : Reading :=
  { r with current := [], earlier := r.current.reverse :: r.earlier }

def closeGroup? (r : Reading) : Option Reading :=
  match r.outer with
  | [] => none
  | (current, earlier) :: outer =>
    let branches := (r.current.reverse :: r.earlier).reverse
    some { r with current := .alternatives branches :: current, earlier, outer }

end Reading

theorem length_classRanges {ranges rs : List (Char × Char)} {opened : Bool} {t rest : Text}
    (h : classRanges ranges opened t = .ok (rs, rest)) : rest.length < t.length := by
  induction t generalizing ranges opened with
  | nil => simp [classRanges] at h
  | cons c t ih =>
    simp only [classRanges] at h
    split at h
    · exact Nat.lt_succ_of_lt (ih h)
    · split at h
      · cases h; exact Nat.lt_succ_self _
      · split at h
        · split at h
          · cases h
          · exact Nat.lt_succ_of_lt (ih h)
        · split at h <;> exact Nat.lt_succ_of_lt (ih h)

theorem length_readClass {t rest : Text} {k : Token} (h : readClass t = .ok (k, rest)) :
    rest.length < t.length := by
  have of_map : ∀ {negated : Bool} {u : Text},
      (classRanges [] false u).map (fun x => (Token.oneOf negated x.1, x.2)) = .ok (k, rest) →
        rest.length < u.length := by
    intro negated u hu
    match hc : classRanges [] false u, hu with
    | .ok (rs, r), hu =>
      cases hu
      exact length_classRanges hc
  unfold readClass at h
  split at h
  · exact Nat.lt_succ_of_lt (of_map h)
  · exact Nat.lt_succ_of_lt (of_map h)
  · exact of_map h

/-- Reads a pattern; `before` is the character before the rest. With `lenient`, the bracket of a
class that is never closed is literal, and so are all brackets after it. -/
def read (lenient : Bool) (r : Reading) (before : Option Char) : Text → Except Fault Reading
  | [] => if r.outer.isEmpty then .ok r else .error .unclosedAlternatives
  | '?' :: t => read lenient (r.push .any) (some '?') t
  | '*' :: '*' :: t =>
    if r.current.isEmpty then
      match t with
      | [] => read lenient (r.push .leadingDirs) (some '*') []
      | '/' :: t => read lenient (r.push .leadingDirs) (some '/') t
      | c :: t => read lenient r.pushStars (some '*') (c :: t)
    else if before ≠ some '/' ∧ (r.outer.isEmpty ∨ before ≠ some ',' ∧ before ≠ some '{') then
      read lenient r.pushStars (some '*') t
    else
      match t with
      | [] => read lenient (r.replaceLast .everythingBelow) (some '*') []
      | '/' :: t => read lenient (r.replaceLast .innerDirs) (some '/') t
      | c :: t =>
        if (c = ',' ∨ c = '}') ∧ !r.outer.isEmpty then
          read lenient (r.replaceLast .everythingBelow) (some '*') (c :: t)
        else read lenient r.pushStars (some '*') (c :: t)
  | '*' :: t => read lenient (r.push .star) (some '*') t
  | '[' :: t =>
    if r.classes then
      match _closed : readClass t with
      | .ok (token, rest) => read lenient (r.push token) (some ']') rest
      | .error .unclosedClass =>
        if lenient then read lenient ({ r with classes := false }.push (.literal '[')) (some '[') t
        else .error .unclosedClass
      | .error f => .error f
    else read lenient (r.push (.literal '[')) (some '[') t
  | '{' :: t => read lenient r.openGroup (some '{') t
  | '}' :: t =>
    match r.closeGroup? with
    | some r => read lenient r (some '}') t
    | none => .error .unopenedAlternatives
  | ',' :: t =>
    if r.outer.isEmpty then read lenient (r.push (.literal ',')) (some ',') t
    else read lenient r.nextBranch (some ',') t
  | '\\' :: c :: t => read lenient (r.push (.literal c)) (some c) t
  | ['\\'] => .error .danglingEscape
  | c :: t => read lenient (r.push (.literal c)) (some c) t
termination_by t => t.length
decreasing_by
  all_goals simp only [List.length_cons, List.length_nil]
  any_goals omega
  have := length_readClass _closed
  omega

def ofPattern (lenient : Bool) (pattern : Text) : Except Fault Glob :=
  (read lenient .start none pattern).map fun r => ⟨r.current.reverse⟩

end FenceSync.Glob
