import FenceSync.Proofs.Document.Counting
import FenceSync.Proofs.Text.Trim
/-!
# Line endings and blanks of a document

When a text is taken for a CRLF document, what a text must be like to bring no CRLF into the document
that it becomes a part of, and documents that use one line ending and no blanks but spaces and tabs.
-/
namespace FenceSync

namespace LineEnding

theorem detect_eq_crlf_iff {t : Text} : detect t = .crlf ↔ crlf.text <:+: t := by
  rw [detect]
  split
  · next h =>
    rw [Text.contains_iff] at h
    simp [h]
  · next h =>
    rw [Text.contains_iff] at h
    simp [h]

theorem detect_eq_lf_iff {t : Text} : detect t = .lf ↔ ¬ crlf.text <:+: t := by
  rw [← detect_eq_crlf_iff]
  cases detect t <;> simp

theorem detect_eq_lf_of_not_mem {t : Text} (h : '\r' ∉ t) : detect t = .lf :=
  detect_eq_lf_iff.2 fun hi => h (hi.subset List.mem_cons_self)

end LineEnding

namespace Text

theorem crlf_infix_append_iff {s t : Text} (h : Apart s t) :
    LineEnding.crlf.text <:+: s ++ t ↔
      LineEnding.crlf.text <:+: s ∨ LineEnding.crlf.text <:+: t := by
  constructor
  · intro hi
    rcases List.infix_append_iff.1 hi with hi | hi | ⟨l₁, l₂, hl, h₁, h₂⟩
    · exact .inl hi
    · exact .inr hi
    · rcases l₁ with - | ⟨a, - | ⟨b, l₁⟩⟩
      · rw [List.nil_append] at hl
        exact .inr (hl ▸ h₂.isInfix)
      · -- the ending would reach over the border
        obtain ⟨rfl, rfl⟩ := List.cons.inj hl
        obtain ⟨r, rfl⟩ := h₁
        obtain ⟨r', rfl⟩ := h₂
        exact absurd rfl (h (by simp))
      · have hnil : l₂ = [] := by
          have := congrArg List.length hl
          simp only [LineEnding.text, List.length_append, List.length_cons, List.length_nil] at this
          exact List.eq_nil_of_length_eq_zero (by omega)
        rw [hnil, List.append_nil] at hl
        exact .inl (hl ▸ h₁.isInfix)
  · rintro (hi | hi)
    · exact hi.trans List.infix_append_left
    · exact List.infix_append_of_infix_right hi

/-- A text that has no CRLF, and makes none with the text behind it. -/
structure FreeOfCrlf (t : Text) : Prop where
  no_crlf : ¬ LineEnding.crlf.text <:+: t
  getLast?_ne : t.getLast? ≠ some '\r'

namespace FreeOfCrlf

theorem of_not_mem {t : Text} (h : '\r' ∉ t) : FreeOfCrlf t :=
  ⟨fun hi => h (hi.subset List.mem_cons_self), fun hl => h (List.mem_of_getLast? hl)⟩

theorem append {s t : Text} (hs : FreeOfCrlf s) (ht : FreeOfCrlf t) : FreeOfCrlf (s ++ t) := by
  have hapart : Apart s t := .of_getLast? fun c hc hr => hs.getLast?_ne (hr ▸ hc)
  constructor
  · rw [crlf_infix_append_iff hapart, not_or]
    exact ⟨hs.no_crlf, ht.no_crlf⟩
  · rw [List.getLast?_append]
    intro h
    cases hl : t.getLast? with
    | none =>
      rw [hl, Option.none_or] at h
      exact hs.getLast?_ne h
    | some c =>
      rw [hl, Option.some_or] at h
      exact ht.getLast?_ne (hl.trans h)

theorem of_suffix {s t : Text} (ht : FreeOfCrlf t) (h : s <:+ t) : FreeOfCrlf s := by
  refine ⟨fun hi => ht.no_crlf (hi.trans h.isInfix), fun hl => ?_⟩
  obtain ⟨r, rfl⟩ := h
  exact ht.getLast?_ne (by rw [List.getLast?_append, hl, Option.some_or])

/-- A trimmed text ends in no blank character. -/
theorem trim {t : Text} (ht : ¬ LineEnding.crlf.text <:+: t) : FreeOfCrlf (Text.trim t) := by
  refine ⟨fun hi => ht (hi.trans (isInfix_trim t)), fun hl => ?_⟩
  have h := getLast?_trim _ hl
  revert h
  decide

theorem join {ls : List Text} (h : ∀ l ∈ ls, FreeOfCrlf l) :
    FreeOfCrlf (LineEnding.lf.join ls) := by
  have hbreak : FreeOfCrlf LineEnding.lf.text := of_not_mem (by decide)
  induction ls with
  | nil => exact of_not_mem (by decide)
  | cons l ls ih =>
    by_cases hl : ls = []
    · rw [hl, LineEnding.join_singleton]
      exact h l List.mem_cons_self
    · rw [LineEnding.join_cons _ l hl]
      exact ((h l List.mem_cons_self).append hbreak).append
        (ih fun m hm => h m (List.mem_cons_of_mem _ hm))

theorem of_mem_split {t : Text} (ht : FreeOfCrlf t) : ∀ l ∈ LineEnding.lf.split t, FreeOfCrlf l := by
  intro l hl
  refine ⟨fun hi => ht.no_crlf (hi.trans (LineEnding.infix_of_mem_split l hl)), fun hlast => ?_⟩
  obtain ⟨x, rfl⟩ := List.getLast?_eq_some_iff.1 hlast
  obtain ⟨xs, ys, hxy⟩ := List.append_of_mem hl
  have hsuffix : LineEnding.lf.join ((x ++ ['\r']) :: ys) <:+ t := by
    rw [← LineEnding.join_split .lf t, hxy]
    by_cases hxs : xs = []
    · rw [hxs, List.nil_append]
    · rw [LineEnding.join_append _ hxs (List.cons_ne_nil _ _)]
      exact List.suffix_append _ _
  have hfree := ht.of_suffix hsuffix
  by_cases hys : ys = []
  · rw [hys, LineEnding.join_singleton] at hfree
    exact hfree.getLast?_ne (by simp)
  · -- a line feed follows the carriage return
    rw [LineEnding.join_cons _ _ hys] at hfree
    exact hfree.no_crlf ⟨x, LineEnding.lf.join ys, by simp [LineEnding.text]⟩

end FreeOfCrlf

/-- Carriage returns and line feeds stand in pairs only. -/
def UsesCrlf (t : Text) : Prop := ∀ i < t.length,
  (t[i]? = some '\r' → t[i + 1]? = some '\n') ∧ (t[i]? = some '\n' → 0 < i ∧ t[i - 1]? = some '\r')

instance (t : Text) : Decidable (UsesCrlf t) :=
  inferInstanceAs (Decidable (∀ i < t.length, _))

theorem UsesCrlf.head?_eq {a b : Text} (h : UsesCrlf (a ++ '\r' :: b)) : b.head? = some '\n' := by
  have h' := (h a.length (by simp)).1 (by simp)
  rwa [List.getElem?_append_right (by omega), Nat.add_sub_cancel_left, List.getElem?_cons_succ,
    ← List.head?_eq_getElem?] at h'

theorem UsesCrlf.getLast?_eq {a b : Text} (h : UsesCrlf (a ++ '\n' :: b)) :
    a.getLast? = some '\r' := by
  obtain ⟨hpos, h'⟩ := (h a.length (by simp)).2 (by simp)
  rwa [List.getElem?_append_left (by omega), ← List.getLast?_eq_getElem?] at h'

theorem UsesCrlf.detect_eq {t : Text} (h : UsesCrlf t) (hr : '\r' ∈ t) :
    LineEnding.detect t = .crlf := by
  obtain ⟨a, b, rfl⟩ := List.append_of_mem hr
  obtain ⟨r, rfl⟩ := List.head?_eq_some_iff.1 h.head?_eq
  exact LineEnding.detect_eq_crlf_iff.2 ⟨a, r, by simp [LineEnding.text]⟩

/-- A line between two breaks holds no other line ending. -/
theorem UsesCrlf.inline_of_between {a l b : Text}
    (h : UsesCrlf (a ++ LineEnding.crlf.text ++ l ++ LineEnding.crlf.text ++ b))
    (hl : ¬ LineEnding.crlf.text <:+: l) : l.Inline := by
  intro c hc
  obtain ⟨x, y, rfl⟩ := List.append_of_mem hc
  constructor
  · rintro rfl
    have h' : UsesCrlf ((a ++ LineEnding.crlf.text ++ x) ++
        '\r' :: (y ++ LineEnding.crlf.text ++ b)) := by simpa using h
    have hy := h'.head?_eq
    rcases y with - | ⟨d, y⟩
    · cases hy
    · obtain rfl : d = '\n' := by simpa using hy
      exact hl ⟨x, y, by simp [LineEnding.text]⟩
  · rintro rfl
    have h' : UsesCrlf ((a ++ LineEnding.crlf.text ++ x) ++
        '\n' :: (y ++ LineEnding.crlf.text ++ b)) := by simpa using h
    have hx := h'.getLast?_eq
    rcases List.eq_nil_or_concat x with rfl | ⟨x, d, rfl⟩
    · simp [LineEnding.text] at hx
    · obtain rfl : d = '\r' := by simpa using hx
      exact hl ⟨x, y, by simp [LineEnding.text]⟩

def UniformBreaks (t : Text) : Prop := '\r' ∉ t ∨ t.UsesCrlf

instance (t : Text) : Decidable (UniformBreaks t) := inferInstanceAs (Decidable (_ ∨ _))

/-- All whitespace is spaces, tabs and the characters of line endings. -/
def PlainBlanks (t : Text) : Prop :=
  ∀ c ∈ t, isBlank c = true → isIndent c = true ∨ c = '\r' ∨ c = '\n'

instance (t : Text) : Decidable (PlainBlanks t) := List.decidableBAll _ t

theorem PlainBlanks.isIndent {s t : Text} (ht : t.PlainBlanks) (hs : s ⊆ t) (hi : s.Inline) :
    ∀ c ∈ s, isBlank c = true → Text.isIndent c = true := by
  intro c hc hb
  rcases ht c (hs hc) hb with h | h | h
  · exact h
  · exact absurd h (hi c hc).1
  · exact absurd h (hi c hc).2

end Text
end FenceSync
