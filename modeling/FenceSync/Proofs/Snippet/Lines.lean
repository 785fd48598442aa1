import FenceSync.Proofs.Document.Breaks
import FenceSync.Snippet.Lines
/-!
# Lines of a source

The lines of a source are those between line feeds, each less the carriage return at its end; none
of them holds a line feed, and selecting takes some of them.
-/
namespace FenceSync.Snippet

theorem split_lf (t : Text) : LineEnding.lf.split t = t.splitOn '\n' := by
  induction t with
  | nil => rfl
  | cons c t ih =>
    by_cases hc : c = '\n'
    · subst hc
      rw [LineEnding.split, ih]
      simp [List.splitOn, List.splitOnP_cons_eq_if_modifyHead]
    · have hp : ¬ LineEnding.lf.text <+: c :: t := by simp [LineEnding.text, Ne.symm hc]
      rw [LineEnding.split_cons hp, ih]
      simp [List.splitOn, List.splitOnP_cons_eq_if_modifyHead, hc]

theorem newline_not_mem_of_mem_lines {content : Text} : ∀ l ∈ lines content, '\n' ∉ l := by
  intro l hl hn
  obtain ⟨m, hm, rfl⟩ := List.mem_map.1 hl
  have hsub : Text.dropReturn m ⊆ m := by
    rw [Text.dropReturn]
    split
    · exact List.dropLast_subset m
    · exact List.Subset.refl m
  rw [← split_lf] at hm
  exact LineEnding.not_infix_of_mem_split m hm ((List.singleton_infix_iff _ _).2 (hsub hn))

theorem mem_of_mem_select {range : Option LineRange} {ls : List Text} :
    ∀ l ∈ select range ls, l ∈ ls := by
  intro l hl
  cases range with
  | none => exact hl
  | some range => exact List.mem_of_mem_take (List.mem_of_mem_drop hl)

end FenceSync.Snippet
