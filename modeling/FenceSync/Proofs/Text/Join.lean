import FenceSync.Text.Basic
import Mathlib.Data.List.Infix
/-!
# Joined texts

Texts with a separator between them.
-/
namespace FenceSync.Text

variable {sep : Text}

theorem join_singleton (sep t : Text) : join sep [t] = t :=
  List.intercalate_singleton

theorem join_cons (sep t : Text) {ts : List Text} (h : ts ≠ []) :
    join sep (t :: ts) = t ++ sep ++ join sep ts := by
  match ts, h with
  | u :: ts, _ => exact List.intercalate_cons_cons

theorem mem_join {ts : List Text} {c : Char} (h : c ∈ join sep ts) :
    c ∈ sep ∨ ∃ t ∈ ts, c ∈ t := by
  induction ts with
  | nil => exact absurd h List.not_mem_nil
  | cons t ts ih =>
    by_cases hts : ts = []
    · rw [hts, join_singleton] at h
      exact .inr ⟨t, List.mem_cons_self, h⟩
    · rw [join_cons sep t hts, List.append_assoc, List.mem_append, List.mem_append] at h
      rcases h with h | h | h
      · exact .inr ⟨t, List.mem_cons_self, h⟩
      · exact .inl h
      · exact (ih h).imp_right fun ⟨u, hu, hc⟩ => ⟨u, List.mem_cons_of_mem _ hu, hc⟩

theorem prefix_join_cons (t : Text) (ts : List Text) : t <+: join sep (t :: ts) := by
  by_cases hts : ts = []
  · rw [hts, join_singleton]
  · rw [join_cons sep t hts, List.append_assoc]
    exact List.prefix_append _ _

theorem infix_join_of_mem {ts : List Text} : ∀ t ∈ ts, t <:+: join sep ts := by
  induction ts with
  | nil => exact nofun
  | cons t ts ih =>
    refine List.forall_mem_cons.2 ⟨(prefix_join_cons t ts).isInfix, fun u hu => ?_⟩
    rw [join_cons sep t (List.ne_nil_of_mem hu)]
    exact List.infix_append_of_infix_right (ih u hu)

end FenceSync.Text
