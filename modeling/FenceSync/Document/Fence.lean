import FenceSync.Text.Blank
import FenceSync.Document.LineEnding
/-!
# Fenced blocks

A fenced block runs from an opening delimiter, with the indentation in front of it, to the first
delimiter that stands at the beginning of a later line. `next?` finds the first closed block of a
text; what it finds, put together again, is the text.
-/
namespace FenceSync

/-- Three backticks. -/
def delimiter : Text := ['\x60', '\x60', '\x60']

structure Fence where
  /-- The spaces and tabs in front of the opening delimiter. -/
  indent : Text
  /-- Everything between the opening delimiter and the end of the closing one. -/
  inside : Text
deriving DecidableEq, Repr

namespace Fence

/-- The whole block, delimiters included. -/
def raw (f : Fence) : Text := f.indent ++ delimiter ++ f.inside

/-- What follows the opening delimiter on its line. -/
def tag (f : Fence) : Text := f.inside.takeWhile fun c => c != '\r' && c != '\n'

def extension? (f : Fence) : Option Text := if f.tag.isEmpty then none else some f.tag

/-- The first line of content, in a block of at least three lines. -/
def firstLine? (e : LineEnding) (f : Fence) : Option Text :=
  match e.split f.raw with
  | _ :: first :: _ :: _ => some first
  | _ => none

/-- A delimiter at the beginning of a line, with the indentation in front of it, and the rest. -/
def delimiterLine? (t : Text) : Option (Text × Text) :=
  (Text.after? delimiter (t.dropWhile Text.isIndent)).map
    fun rest => (t.takeWhile Text.isIndent ++ delimiter, rest)

/-- The text up to the end of the first delimiter that begins a later line, and the rest. -/
def closing? : Text → Option (Text × Text)
  | [] => none
  | c :: t =>
    match if c = '\n' then delimiterLine? t else none with
    | some (d, rest) => some (c :: d, rest)
    | none => (closing? t).map fun (inside, rest) => (c :: inside, rest)

/-- The text before the first closed block, the block, and the text after it. -/
def next? (t : Text) : Option (Text × Fence × Text) :=
  match Text.cut? delimiter t with
  | none => none
  | some (before, after) =>
    (closing? after).map fun (inside, rest) =>
      (Text.dropEndWhile Text.isIndent before,
        ⟨Text.takeEndWhile Text.isIndent before, inside⟩, rest)

theorem eq_append_of_delimiterLine? {t d r : Text} (h : delimiterLine? t = some (d, r)) :
    t = d ++ r := by
  obtain ⟨r', h', he⟩ := Option.map_eq_some_iff.1 h
  cases he
  rw [List.append_assoc, ← Text.eq_append_of_after? h', List.takeWhile_append_dropWhile]

theorem eq_append_of_closing? {t i r : Text} (h : closing? t = some (i, r)) : t = i ++ r := by
  induction t generalizing i with
  | nil => simp [closing?] at h
  | cons c t ih =>
    simp only [closing?] at h
    split at h
    · next d rest hd =>
      cases h
      split at hd
      · simp [← eq_append_of_delimiterLine? hd]
      · simp at hd
    · obtain ⟨⟨i', r'⟩, h', he⟩ := Option.map_eq_some_iff.1 h
      cases he
      simp [ih h']

theorem eq_append_of_next? {t g r : Text} {f : Fence} (h : next? t = some (g, f, r)) :
    t = g ++ f.raw ++ r := by
  simp only [next?] at h
  split at h
  · simp at h
  · next before after hc =>
    obtain ⟨⟨i, r'⟩, h', he⟩ := Option.map_eq_some_iff.1 h
    cases he
    have h1 := Text.eq_append_of_cut? hc
    have h2 := eq_append_of_closing? h'
    have h3 := Text.dropEndWhile_append_takeEndWhile Text.isIndent before
    rw [h1, h2, raw]
    simp only [← List.append_assoc]
    rw [h3]

theorem length_raw_pos (f : Fence) : 0 < f.raw.length := by
  simp only [raw, delimiter, List.length_append, List.length_cons]
  omega

end Fence
end FenceSync
