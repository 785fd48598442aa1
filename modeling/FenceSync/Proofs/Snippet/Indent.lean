import FenceSync.Snippet.Lines
import Mathlib.Data.List.DropRight
import Mathlib.Data.List.Forall2
/-!
# The indentation taken off

An empty line starts the count of leading blanks anew, so the indentation taken off is that of the
last run of lines without an empty one between them. It can be more than an earlier run has, and
that is the only way in which text is lost.
-/
namespace FenceSync.Snippet

def Flush (line : Text) : Prop := line ≠ [] ∧ leadingBlanks line = 0

instance (line : Text) : Decidable (Flush line) := inferInstanceAs (Decidable (_ ∧ _))

/-- The last lines without an empty line between them, empty lines at the end left aside. -/
def lastRun (lines : List Text) : List Text :=
  (lines.rdropWhile (· = [])).rtakeWhile (· ≠ [])

def earlierRuns (lines : List Text) : List Text :=
  (lines.rdropWhile (· = [])).rdropWhile (· ≠ [])

def leastLead (lines : List Text) : Option Nat := (lines.map leadingBlanks).min?

/-- More than blanks stands among the first characters. -/
def Loses (indent : Nat) (line : Text) : Prop := ∃ c ∈ line.take indent, Text.isBlank c = false

variable {lines rest : List Text} {line : Text} {minimum : Option Nat} {fresh : Bool} {n : Nat}

theorem earlierRuns_append_lastRun (lines : List Text) :
    earlierRuns lines ++ lastRun lines = lines.rdropWhile (· = []) :=
  List.rdropWhile_append_rtakeWhile

theorem ne_nil_of_mem_lastRun (h : line ∈ lastRun lines) : line ≠ [] := by
  have hne := List.mem_rtakeWhile_imp h
  rwa [decide_eq_true_eq] at hne

theorem mem_of_mem_lastRun (h : line ∈ lastRun lines) : line ∈ lines :=
  List.rdropWhile_prefix _ _ |>.subset (List.rtakeWhile_suffix _ _ |>.subset h)

theorem mem_of_mem_earlierRuns (h : line ∈ earlierRuns lines) : line ∈ lines :=
  List.rdropWhile_prefix _ _ |>.subset (List.rdropWhile_prefix _ _ |>.subset h)

/-- A line that is not empty stands in some run. -/
theorem mem_earlierRuns_or_mem_lastRun (h : line ∈ lines) (hne : line ≠ []) :
    line ∈ earlierRuns lines ∨ line ∈ lastRun lines := by
  rw [← List.mem_append, earlierRuns_append_lastRun]
  rw [← List.rdropWhile_append_rtakeWhile (p := (· = [])) (l := lines), List.mem_append] at h
  apply h.resolve_right
  intro hmem
  have hnil := List.mem_rtakeWhile_imp hmem
  rw [decide_eq_true_eq] at hnil
  exact hne hnil

theorem lastRun_ne_nil (h : line ∈ lines) (hne : line ≠ []) : lastRun lines ≠ [] := by
  have hdrop : lines.rdropWhile (· = []) ≠ [] := by
    intro hnil
    have hall := List.rdropWhile_eq_nil_iff.1 hnil line h
    rw [decide_eq_true_eq] at hall
    exact hne hall
  rw [lastRun, Ne, List.rtakeWhile_eq_nil_iff]
  intro hlast
  have hnil := List.rdropWhile_last_not _ _ hdrop
  have hne' := hlast hdrop
  simp only [decide_eq_true_eq, not_not, ne_eq] at hnil hne'
  exact hnil hne'

theorem lastRun_concat_nil (lines : List Text) : lastRun (lines ++ [[]]) = lastRun lines := by
  rw [lastRun, List.rdropWhile_concat_pos _ _ _ (by decide), lastRun]

theorem lastRun_concat (hne : line ≠ []) :
    lastRun (lines ++ [line]) =
      (if lines.getLast? = some [] then [] else lastRun lines) ++ [line] := by
  rw [lastRun, List.rdropWhile_concat_neg _ _ _ (by simpa using hne),
    List.rtakeWhile_concat_pos _ _ _ (by simpa using hne)]
  congr 1
  split
  · next h =>
    rw [List.rtakeWhile_eq_nil_iff]
    intro hl
    rw [List.getLast?_eq_some_getLast hl, Option.some.injEq] at h
    simp [h]
  · next h =>
    have hself : lines.rdropWhile (· = []) = lines := by
      rw [List.rdropWhile_eq_self_iff]
      intro hl hlast
      rw [decide_eq_true_eq] at hlast
      rw [List.getLast?_eq_some_getLast hl, hlast] at h
      exact h rfl
    rw [lastRun, hself]

theorem leastLead_concat (lines : List Text) (line : Text) :
    leastLead (lines ++ [line]) =
      some ((leastLead lines).elim (leadingBlanks line) (min · (leadingBlanks line))) := by
  cases lines with
  | nil => simp [leastLead]
  | cons first lines =>
    simp only [leastLead, List.cons_append, List.map_cons, List.map_append, List.map_nil,
      List.min?_cons', List.foldl_append, List.foldl_cons, List.foldl_nil, Option.elim_some]

theorem leastLead_le (h : leastLead lines = some n) (hl : line ∈ lines) :
    n ≤ leadingBlanks line :=
  (List.min?_eq_some_iff.1 h).2 _ (List.mem_map_of_mem hl)

/-- Where the count stands when it has come through some lines. -/
structure Counted (lines : List Text) (minimum : Option Nat) (fresh : Bool) : Prop where
  minimum : minimum = leastLead (lastRun lines)
  fresh : fresh = true ↔ lines.getLast? = some []

theorem counted_nil : Counted [] none false := ⟨rfl, by simp⟩

theorem Counted.empty (h : Counted lines minimum fresh) :
    Counted (lines ++ [[]]) minimum true :=
  ⟨by rw [lastRun_concat_nil, h.minimum], by simp⟩

theorem Counted.concat (h : Counted lines minimum fresh) (hne : line ≠ []) :
    Counted (lines ++ [line]) (some (minimum.elim (leadingBlanks line) fun m =>
      if fresh then leadingBlanks line else min m (leadingBlanks line))) false := by
  refine ⟨?_, by simpa using hne⟩
  rw [lastRun_concat hne, leastLead_concat]
  cases fresh with
  | true =>
    rw [if_pos (h.fresh.1 rfl)]
    cases minimum <;> rfl
  | false =>
    rw [if_neg fun hl => Bool.false_ne_true (h.fresh.2 hl), ← h.minimum]
    rfl

/-- The count is not settled before a line without leading blanks comes. -/
theorem Counted.ne_zero (h : Counted lines minimum fresh) (hf : ∀ l ∈ lines, ¬Flush l) :
    minimum ≠ some 0 := by
  rintro rfl
  obtain ⟨hmem, -⟩ := List.min?_eq_some_iff.1 h.minimum.symm
  obtain ⟨l, hl, hzero⟩ := List.mem_map.1 hmem
  exact hf l (mem_of_mem_lastRun hl) ⟨ne_nil_of_mem_lastRun hl, hzero⟩

/-- The lines still to come and those counted make up the last run together. -/
theorem Counted.minimumIndentFrom (h : Counted lines minimum fresh)
    (hf : ∀ l ∈ lines ++ rest, ¬Flush l) :
    minimumIndentFrom minimum fresh rest = (leastLead (lastRun (lines ++ rest))).getD 0 := by
  induction rest generalizing lines minimum fresh with
  | nil => rw [Snippet.minimumIndentFrom, List.append_nil, h.minimum]
  | cons line rest ih =>
    have hzero := h.ne_zero fun l hl => hf l (List.mem_append_left _ hl)
    rw [List.append_cons] at hf ⊢
    rw [Snippet.minimumIndentFrom, if_neg hzero]
    by_cases hne : line = []
    · subst hne
      rw [if_pos rfl, ih h.empty hf]
    · rw [if_neg hne, ← ih (h.concat hne) hf]
      cases minimum <;> rfl

theorem minimumIndentFrom_zero (fresh : Bool) (rest : List Text) :
    minimumIndentFrom (some 0) fresh rest = 0 := by
  cases rest with
  | nil => rfl
  | cons line rest => rw [minimumIndentFrom, if_pos rfl]

theorem minimumIndentFrom_of_flush (h : ∃ l ∈ rest, Flush l) :
    minimumIndentFrom minimum fresh rest = 0 := by
  induction rest generalizing minimum fresh with
  | nil => simp at h
  | cons line rest ih =>
    rw [minimumIndentFrom]
    by_cases hzero : minimum = some 0
    · rw [if_pos hzero]
    rw [if_neg hzero]
    rw [List.exists_mem_cons_iff] at h
    rcases h with ⟨hne, hlead⟩ | h
    · rw [if_neg hne]
      cases minimum <;> simp [hlead, minimumIndentFrom_zero]
    · split
      · exact ih h
      · split <;> exact ih h

theorem minimumIndent_of_flush (h : ∃ l ∈ lines, Flush l) : minimumIndent lines = 0 :=
  minimumIndentFrom_of_flush h

theorem minimumIndent_of_not_flush (h : ∀ l ∈ lines, ¬Flush l) :
    minimumIndent lines = (leastLead (lastRun lines)).getD 0 :=
  counted_nil.minimumIndentFrom h

theorem minimumIndent_of_forall_nil (h : ∀ l ∈ lines, l = []) : minimumIndent lines = 0 := by
  have hlast : lastRun lines = [] := by
    rw [List.eq_nil_iff_forall_not_mem]
    exact fun l hl => ne_nil_of_mem_lastRun hl (h l (mem_of_mem_lastRun hl))
  rw [minimumIndent_of_not_flush fun l hl hf => hf.1 (h l hl), hlast]
  rfl

theorem leastLead_lastRun (hf : ∀ l ∈ lines, ¬Flush l) (h : line ∈ lines) (hne : line ≠ []) :
    leastLead (lastRun lines) = some (minimumIndent lines) := by
  rw [minimumIndent_of_not_flush hf]
  cases hleast : leastLead (lastRun lines) with
  | none =>
    rw [leastLead, List.min?_eq_none_iff, List.map_eq_nil_iff] at hleast
    exact absurd hleast (lastRun_ne_nil h hne)
  | some n => rfl

/-- The last run has as much indentation as is taken off. -/
theorem minimumIndent_le (h : line ∈ lastRun lines) : minimumIndent lines ≤ leadingBlanks line := by
  by_cases hf : ∃ l ∈ lines, Flush l
  · rw [minimumIndent_of_flush hf]
    exact Nat.zero_le _
  · have hleast := leastLead_lastRun (by simpa using hf) (mem_of_mem_lastRun h)
      (ne_nil_of_mem_lastRun h)
    exact leastLead_le hleast h

theorem not_loses_of_le (h : n ≤ leadingBlanks line) : ¬Loses n line := by
  rintro ⟨c, hc, hb⟩
  have hsub : line.take n <+: line.takeWhile Text.isBlank := by
    apply List.prefix_of_prefix_length_le (List.take_prefix n line) (List.takeWhile_prefix _)
    rw [List.length_take]
    exact (Nat.min_le_left _ _).trans h
  have hblank := List.mem_takeWhile_imp (hsub.subset hc)
  rw [hb] at hblank
  cases hblank

theorem not_loses_zero (line : Text) : ¬Loses 0 line := not_loses_of_le (Nat.zero_le _)

theorem Loses.ne_nil (h : Loses n line) : line ≠ [] := by
  rintro rfl
  obtain ⟨c, hc, -⟩ := h
  simp at hc

/-- Text is lost from an earlier run that is indented less than the last one. -/
theorem loses_minimumIndent_iff :
    (∃ l ∈ lines, Loses (minimumIndent lines) l) ↔
      (∀ l ∈ lines, ¬Flush l) ∧
        ∃ n ∈ leastLead (lastRun lines), ∃ l ∈ earlierRuns lines, Loses n l := by
  constructor
  · rintro ⟨l, hl, hloses⟩
    have hf : ∀ l ∈ lines, ¬Flush l := by
      intro m hm hflush
      rw [minimumIndent_of_flush ⟨m, hm, hflush⟩] at hloses
      exact not_loses_zero l hloses
    refine ⟨hf, minimumIndent lines, leastLead_lastRun hf hl hloses.ne_nil, l, ?_, hloses⟩
    apply (mem_earlierRuns_or_mem_lastRun hl hloses.ne_nil).resolve_right
    exact fun hlast => not_loses_of_le (minimumIndent_le hlast) hloses
  · rintro ⟨hf, n, hn, l, hl, hloses⟩
    have hleast := leastLead_lastRun hf (mem_of_mem_earlierRuns hl) hloses.ne_nil
    obtain rfl := Option.mem_unique hn hleast
    exact ⟨l, mem_of_mem_earlierRuns hl, hloses⟩

/-- The indentation taken off is none when every line is empty or when one of them is not indented,
and otherwise the least of the last run. Every line loses its first characters, those of the last
run only blanks, and text is lost exactly from earlier runs with less indentation. -/
theorem dedent_minimumIndent (lines : List Text) :
    some (minimumIndent lines) =
        (if (∀ l ∈ lines, l = []) ∨ ∃ l ∈ lines, Flush l then some 0
        else leastLead (lastRun lines)) ∧
      List.Forall₂ (fun l l' => l' = l.drop (minimumIndent lines)) lines
        (dedent (minimumIndent lines) lines) ∧
      (∀ l ∈ lastRun lines, ¬Loses (minimumIndent lines) l) ∧
      ((∃ l ∈ lines, Loses (minimumIndent lines) l) ↔
        (∀ l ∈ lines, ¬Flush l) ∧
          ∃ n ∈ leastLead (lastRun lines), ∃ l ∈ earlierRuns lines, Loses n l) := by
  refine ⟨?_, ?_, fun l hl => not_loses_of_le (minimumIndent_le hl), loses_minimumIndent_iff⟩
  · split
    · next h =>
      rcases h with hnil | hf
      · rw [minimumIndent_of_forall_nil hnil]
      · rw [minimumIndent_of_flush hf]
    · next h =>
      simp only [not_or, not_forall, not_exists, not_and] at h
      obtain ⟨⟨l, hl, hne⟩, hf⟩ := h
      exact (leastLead_lastRun hf hl hne).symm
  · rw [dedent, List.forall₂_map_right_iff, List.forall₂_same]
    exact fun l _ => rfl

/-- The first run is indented less than the last, and its text is lost. -/
example :
    let lines : List Text := ["  a".toList, [], "    b".toList, "     c".toList, []]
    minimumIndent lines = 4 ∧
      dedent (minimumIndent lines) lines = [[], [], ['b'], [' ', 'c'], []] := by
  decide

end FenceSync.Snippet
