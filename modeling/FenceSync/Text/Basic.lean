/-!
# Text as a list of characters

Searching and cutting. `after?` takes a given beginning off a text, `cut?` cuts a text around the
first occurrence of a pattern, and `firstMatch?` runs a recogniser from the left until it answers.
Patterns come before the text they are looked for in. Sizes are in UTF-8 bytes.
-/
namespace FenceSync

abbrev Text := List Char

abbrev Bytes := List UInt8

namespace Text

/-- The rest of a text that begins with the given pattern. -/
def after? : Text → Text → Option Text
  | [], t => some t
  | _ :: _, [] => none
  | a :: p, c :: t => if a = c then after? p t else none

theorem after?_append (p t : Text) : after? p (p ++ t) = some t := by
  induction p with
  | nil => rfl
  | cons a p ih => simp [after?, ih]

theorem eq_append_of_after? {p t r : Text} (h : after? p t = some r) : t = p ++ r := by
  induction p generalizing t with
  | nil => simpa [after?] using h
  | cons a p ih =>
    cases t with
    | nil => simp [after?] at h
    | cons c t =>
      simp only [after?] at h
      split at h
      · next hac => simp [hac, ih h]
      · simp at h

theorem after?_eq_some_iff {p t r : Text} : after? p t = some r ↔ t = p ++ r :=
  ⟨eq_append_of_after?, fun h => h ▸ after?_append p r⟩

def startsWith (p t : Text) : Bool := (after? p t).isSome

/-- The text less the given beginning, or the whole text when it begins otherwise. -/
def dropStart (p t : Text) : Text := (after? p t).getD t

/-- The parts of a text before and after the first occurrence of the pattern. -/
def cut? (p : Text) : Text → Option (Text × Text)
  | [] => (after? p []).map ([], ·)
  | c :: t =>
    match after? p (c :: t) with
    | some r => some ([], r)
    | none => (cut? p t).map fun (b, r) => (c :: b, r)

theorem eq_append_of_cut? {p t b r : Text} (h : cut? p t = some (b, r)) : t = b ++ p ++ r := by
  induction t generalizing b with
  | nil =>
    obtain ⟨r', h', he⟩ := Option.map_eq_some_iff.1 h
    cases he
    simpa using eq_append_of_after? h'
  | cons c t ih =>
    simp only [cut?] at h
    split at h
    · next r' h' => cases h; simpa using eq_append_of_after? h'
    · obtain ⟨⟨b', r'⟩, h', he⟩ := Option.map_eq_some_iff.1 h
      cases he
      simp [ih h']

def contains (p t : Text) : Bool := (cut? p t).isSome

/-- What the recogniser reads at the leftmost place where it reads anything. -/
def firstMatch? {α : Type} (f : Text → Option α) : Text → Option α
  | [] => f []
  | c :: t =>
    match f (c :: t) with
    | some a => some a
    | none => firstMatch? f t

/-- The text less its longest end of which every character satisfies `p`. -/
def dropEndWhile (p : Char → Bool) (t : Text) : Text := (t.reverse.dropWhile p).reverse

/-- The longest end of a text of which every character satisfies `p`. -/
def takeEndWhile (p : Char → Bool) (t : Text) : Text := (t.reverse.takeWhile p).reverse

theorem dropEndWhile_append_takeEndWhile (p : Char → Bool) (t : Text) :
    dropEndWhile p t ++ takeEndWhile p t = t := by
  simp [dropEndWhile, takeEndWhile, ← List.reverse_append]

/-- A line less the carriage return at its end. -/
def dropReturn (line : Text) : Text := if line.getLast? = some '\r' then line.dropLast else line

def join (sep : Text) (ts : List Text) : Text := List.intercalate sep ts

/-- The number of bytes of the text in UTF-8. -/
def byteSize : Text → Nat
  | [] => 0
  | c :: t => c.utf8Size + byteSize t

theorem byteSize_append (s t : Text) : byteSize (s ++ t) = byteSize s + byteSize t := by
  induction s with
  | nil => simp [byteSize]
  | cons c s ih => simp [byteSize, ih, Nat.add_assoc]

/-- The text in UTF-8. -/
def bytes (t : Text) : Bytes := t.flatMap String.utf8EncodeChar

instance : Coe Text Bytes := ⟨bytes⟩

/-- A number in decimal. -/
def ofNat (n : Nat) : Text := Nat.toDigits 10 n

/-- The value of a sequence of ASCII digits. -/
def decimal (t : Text) : Nat := t.foldl (fun n c => n * 10 + (c.toNat - '0'.toNat)) 0

end Text
end FenceSync
