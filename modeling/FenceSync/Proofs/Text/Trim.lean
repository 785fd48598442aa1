import FenceSync.Proofs.Text.Search
import FenceSync.Text.Blank
/-!
# Trimming

A trimmed text is a part of the text that neither begins nor ends with a blank character, and
trimming takes any blanks in front of it off again.
-/
namespace FenceSync.Text

theorem isSuffix_trimStart (t : Text) : trimStart t <:+ t := List.dropWhile_suffix _

theorem isPrefix_trimEnd (t : Text) : trimEnd t <+: t :=
  ⟨takeEndWhile isBlank t, dropEndWhile_append_takeEndWhile _ _⟩

theorem isInfix_trim (t : Text) : trim t <:+: t :=
  (isPrefix_trimEnd _).isInfix.trans (isSuffix_trimStart t).isInfix

theorem head?_trimStart {t : Text} : ∀ c ∈ (trimStart t).head?, isBlank c = false := by
  intro c hc
  have h := List.head?_dropWhile_not isBlank t
  rw [trimStart] at hc
  rw [hc] at h
  exact h

theorem getLast?_trimEnd {t : Text} : ∀ c ∈ (trimEnd t).getLast?, isBlank c = false :=
  getLast?_dropEndWhile

theorem head?_trim {t : Text} : ∀ c ∈ (trim t).head?, isBlank c = false := by
  intro c hc
  have hp : trimEnd (trimStart t) <+: trimStart t := isPrefix_trimEnd _
  rw [trim] at hc
  cases h : trimEnd (trimStart t) with
  | nil => simp [h] at hc
  | cons a r =>
    rw [h, List.head?_cons, Option.mem_some_iff] at hc
    obtain ⟨s, hs⟩ := hp
    exact head?_trimStart c (by rw [← hs, h, ← hc]; rfl)

theorem getLast?_trim {t : Text} : ∀ c ∈ (trim t).getLast?, isBlank c = false :=
  getLast?_trimEnd

theorem trimStart_append {i : Text} (hi : ∀ c ∈ i, isBlank c = true) (t : Text) :
    trimStart (i ++ t) = trimStart t :=
  List.dropWhile_append_of_pos hi

theorem trimStart_append_blanks {i : Text} (hi : ∀ c ∈ i, isBlank c = true) (t : Text) :
    trimStart (t ++ i) = if trimStart t = [] then [] else trimStart t ++ i := by
  by_cases h : trimStart t = []
  · have ht : t.dropWhile isBlank = [] := h
    rw [if_pos h, trimStart, List.dropWhile_append, ht, if_pos List.isEmpty_nil]
    exact List.dropWhile_eq_nil_iff.2 hi
  · have ht : (t.dropWhile isBlank).isEmpty = false := by simpa [trimStart] using h
    rw [if_neg h, trimStart, List.dropWhile_append, ht, if_neg Bool.false_ne_true]
    rfl

theorem trimStart_eq_self {t : Text} (h : ∀ c ∈ t.head?, isBlank c = false) :
    trimStart t = t := by
  cases t with
  | nil => rfl
  | cons c t => exact List.dropWhile_cons_of_neg (by simp [h c rfl])

theorem trimEnd_append {t i : Text} (ht : ∀ c ∈ t.getLast?, isBlank c = false)
    (hi : ∀ c ∈ i, isBlank c = true) : trimEnd (t ++ i) = t :=
  dropEndWhile_append ht hi

theorem trimEnd_eq_self {t : Text} (h : ∀ c ∈ t.getLast?, isBlank c = false) :
    trimEnd t = t := by
  have h' := trimEnd_append h (i := []) (by simp)
  rwa [List.append_nil] at h'

/-- Trimming stops at the first character that is not blank. -/
theorem trimStart_append_of_text {t : Text} (h : ∃ c ∈ t, isBlank c = false) (s : Text) :
    trimStart (t ++ s) = trimStart t ++ s := by
  have ht : ¬ (t.dropWhile isBlank).isEmpty = true := by
    rw [List.isEmpty_iff, List.dropWhile_eq_nil_iff]
    obtain ⟨c, hc, hb⟩ := h
    intro hall
    rw [hall c hc] at hb
    cases hb
  rw [trimStart, List.dropWhile_append, if_neg ht]
  rfl

theorem trimEnd_append_of_text {t : Text} (h : ∃ c ∈ t, isBlank c = false) (s : Text) :
    trimEnd (s ++ t) = s ++ trimEnd t := by
  have hr := trimStart_append_of_text (t := t.reverse) (by simpa using h) s.reverse
  rw [trimStart, trimStart] at hr
  rw [trimEnd, dropEndWhile, List.reverse_append, hr]
  simp [trimEnd, dropEndWhile]

/-- Blanks in front of a trimmed text come off again. -/
theorem trim_append_trim {i : Text} (hi : ∀ c ∈ i, isBlank c = true) (t : Text) :
    trim (i ++ trim t) = trim t := by
  rw [trim, trimStart_append hi, trimStart_eq_self head?_trim, trimEnd_eq_self getLast?_trim]

/-- A text is its trimmed form between blanks. -/
theorem exists_eq_append_trim (t : Text) : ∃ i j : Text, (∀ c ∈ i, isBlank c = true) ∧
    (∀ c ∈ j, isBlank c = true) ∧ t = i ++ trim t ++ j := by
  refine ⟨t.takeWhile isBlank, takeEndWhile isBlank (trimStart t), ?_, forall_mem_takeEndWhile, ?_⟩
  · exact fun c hc => List.mem_takeWhile_imp hc
  · have h : trim t ++ takeEndWhile isBlank (trimStart t) = trimStart t :=
      dropEndWhile_append_takeEndWhile _ _
    rw [List.append_assoc, h]
    exact (List.takeWhile_append_dropWhile).symm

end FenceSync.Text
