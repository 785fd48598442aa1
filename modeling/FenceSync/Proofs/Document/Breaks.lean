import FenceSync.Proofs.Text.Join
import FenceSync.Proofs.Text.Search
import FenceSync.Document.Fence
/-!
# Line breaks

`split` cuts a text at every occurrence of the line ending and nowhere else: it turns a break between
two texts into a border between their lines, and none of the lines contains a break. Delimiters, tags
and indentations stand inside a line.
-/
namespace FenceSync

def Text.Inline (t : Text) : Prop := ∀ c ∈ t, c ≠ '\r' ∧ c ≠ '\n'

namespace Text

instance (t : Text) : Decidable t.Inline := List.decidableBAll _ t

theorem Inline.append {s t : Text} (hs : s.Inline) (ht : t.Inline) : Inline (s ++ t) := by
  intro c hc
  rcases List.mem_append.1 hc with h | h
  · exact hs c h
  · exact ht c h

theorem infix_append_cons_iff {p u v : Text} {c : Char} (hp : p ≠ []) (hc : c ∉ p) :
    p <:+: u ++ c :: v ↔ p <:+: u ∨ p <:+: v := by
  constructor
  · intro h
    rcases List.infix_append_iff.1 h with h | h | ⟨l₁, l₂, rfl, h₁, h₂⟩
    · exact .inl h
    · rcases List.infix_cons_iff.1 h with h | h
      · rcases p with - | ⟨a, p⟩
        · exact absurd rfl hp
        · exact absurd (List.cons_prefix_cons.1 h).1 fun h => hc (h ▸ List.mem_cons_self)
      · exact .inr h
    · rcases l₂ with - | ⟨a, l₂⟩
      · rw [List.append_nil]
        exact .inl h₁.isInfix
      · have ha : a = c := (List.cons_prefix_cons.1 h₂).1
        exact absurd (List.mem_append_right l₁ (ha ▸ List.mem_cons_self)) hc
  · rintro (h | h)
    · exact h.trans List.infix_append_left
    · exact h.trans (List.infix_append_of_infix_right (List.infix_cons List.infix_rfl))

theorem infix_append_iff_of_not_mem {p u v : Text} (hp : p ≠ []) (hu : ∀ c ∈ u, c ∉ p) :
    p <:+: u ++ v ↔ p <:+: v := by
  induction u with
  | nil => rw [List.nil_append]
  | cons c u ih =>
    have h := infix_append_cons_iff (u := []) (v := u ++ v) hp (hu c List.mem_cons_self)
    rw [List.nil_append, List.infix_nil] at h
    rw [List.cons_append, h, ih fun a ha => hu a (List.mem_cons_of_mem _ ha)]
    simp [hp]

theorem Inline.no_break {t : Text} (ht : t.Inline) (e : LineEnding) :
    ¬ e.text <:+: t := by
  intro h
  have hn : '\n' ∈ e.text := by cases e <;> decide
  exact (ht '\n' (h.subset hn)).2 rfl

end Text

namespace LineEnding

theorem infix_append_break_iff {p : Text} (hp : p ≠ []) (hi : p.Inline) (e : LineEnding)
    (u v : Text) : p <:+: u ++ e.text ++ v ↔ p <:+: u ∨ p <:+: v := by
  have hr : '\r' ∉ p := fun h => (hi _ h).1 rfl
  have hn : '\n' ∉ p := fun h => (hi _ h).2 rfl
  rw [List.append_assoc]
  cases e with
  | lf => exact Text.infix_append_cons_iff hp hn
  | crlf =>
    have h := Text.infix_append_cons_iff (u := u) (v := '\n' :: v) hp hr
    have h' := Text.infix_append_iff_of_not_mem (u := ['\n']) (v := v) hp (by simpa using hn)
    exact h.trans (or_congr_right h')

theorem split_break (e : LineEnding) (t : Text) : e.split (e.text ++ t) = [] :: e.split t := by
  cases e <;> rfl

theorem split_cons {e : LineEnding} {c : Char} {t : Text} (h : ¬ e.text <+: c :: t) :
    e.split (c :: t) = (e.split t).modifyHead (c :: ·) := by
  rw [split]
  · rintro rfl rfl
    exact h ⟨t, rfl⟩
  · rintro t' rfl rfl rfl
    exact h ⟨t', rfl⟩

/-- No break reaches over the place where one is put in. -/
theorem prefix_cons_append_break_iff (e : LineEnding) (c : Char) (a b : Text) :
    e.text <+: c :: (a ++ e.text ++ b) ↔ e.text <+: c :: a := by
  cases e with
  | lf => simp [text, List.cons_prefix_cons]
  | crlf =>
    rcases a with - | ⟨d, a⟩
    · simp [text, List.cons_prefix_cons]
    · simp [text, List.cons_prefix_cons]

theorem not_prefix_cons {e : LineEnding} {c : Char} {t : Text} (h : e = lf → c ≠ '\n')
    (h' : ∀ s, e = crlf → c = '\r' → t ≠ '\n' :: s) : ¬ e.text <+: c :: t := by
  intro hp
  cases e with
  | lf => exact h rfl (List.cons_prefix_cons.1 hp).1.symm
  | crlf =>
    obtain ⟨hr, s, rfl⟩ := List.cons_prefix_cons.1 hp
    exact h' s rfl hr.symm rfl

theorem split_append_break (e : LineEnding) (a b : Text) :
    e.split (a ++ e.text ++ b) = e.split a ++ e.split b := by
  fun_induction split e a with
  | case1 e => exact split_break e b
  | case2 t ih => exact (split_break .lf _).trans (congrArg ([] :: ·) ih)
  | case3 t ih => exact (split_break .crlf _).trans (congrArg ([] :: ·) ih)
  | case4 e c t h h' ih =>
    have hc := not_prefix_cons h h'
    rw [List.cons_append, List.cons_append,
      split_cons (by rwa [prefix_cons_append_break_iff]), ih]
    obtain ⟨l, ls, hl⟩ := List.exists_cons_of_ne_nil (split_ne_nil e t)
    rw [hl]
    rfl

theorem split_eq_singleton {e : LineEnding} {t : Text} (h : ¬ e.text <:+: t) :
    e.split t = [t] := by
  induction t with
  | nil => rfl
  | cons c t ih =>
    rw [List.infix_cons_iff, not_or] at h
    rw [split_cons h.1, ih h.2]
    rfl

/-- The first line takes in what stands before the text, if that has no break. -/
theorem split_append_of_inline {u : Text} (hu : u.Inline) (e : LineEnding) (t : Text) :
    e.split (u ++ t) = (e.split t).modifyHead (u ++ ·) := by
  induction u with
  | nil =>
    rw [List.nil_append]
    cases e.split t <;> rfl
  | cons c u ih =>
    have hc : ¬ e.text <+: c :: (u ++ t) := by
      intro h
      have hm : c = '\r' ∨ c = '\n' := by
        cases e with
        | lf => exact .inr (List.cons_prefix_cons.1 h).1.symm
        | crlf => exact .inl (List.cons_prefix_cons.1 h).1.symm
      exact hm.elim (hu c List.mem_cons_self).1 (hu c List.mem_cons_self).2
    rw [List.cons_append, split_cons hc, ih fun a ha => hu a (List.mem_cons_of_mem _ ha),
      List.modifyHead_modifyHead]
    rfl

/-- What holds no line feed is added to the last line. -/
theorem exists_split_lf_append (t : Text) :
    ∃ ls l, ∀ u : Text, '\n' ∉ u → lf.split (t ++ u) = ls ++ [l ++ u] := by
  induction t with
  | nil =>
    refine ⟨[], [], fun u hu => ?_⟩
    exact split_eq_singleton fun h => hu (h.subset List.mem_cons_self)
  | cons c t ih =>
    obtain ⟨ls, l, h⟩ := ih
    by_cases hc : c = '\n'
    · subst hc
      exact ⟨[] :: ls, l, fun u hu => congrArg ([] :: ·) (h u hu)⟩
    · have hsplit (u : Text) : lf.split (c :: t ++ u) = (lf.split (t ++ u)).modifyHead (c :: ·) :=
        split_cons fun hp => hc (List.cons_prefix_cons.1 hp).1.symm
      cases ls with
      | nil => exact ⟨[], c :: l, fun u hu => by rw [hsplit, h u hu]; rfl⟩
      | cons m ls => exact ⟨(c :: m) :: ls, l, fun u hu => by rw [hsplit, h u hu]; rfl⟩

theorem join_singleton (e : LineEnding) (l : Text) : e.join [l] = l :=
  Text.join_singleton e.text l

theorem join_cons (e : LineEnding) (l : Text) {ls : List Text} (h : ls ≠ []) :
    e.join (l :: ls) = l ++ e.text ++ e.join ls :=
  Text.join_cons e.text l h

theorem join_append (e : LineEnding) {ls ms : List Text} (hl : ls ≠ []) (hm : ms ≠ []) :
    e.join (ls ++ ms) = e.join ls ++ e.text ++ e.join ms := by
  induction ls with
  | nil => exact absurd rfl hl
  | cons l ls ih =>
    by_cases h : ls = []
    · subst h
      rw [join_singleton, List.singleton_append, join_cons e l hm]
    · rw [List.cons_append, join_cons e l (by simp [h]), ih h, join_cons e l h]
      simp only [List.append_assoc]

theorem join_append_singleton (e : LineEnding) (ls : List Text) (l u : Text) :
    e.join (ls ++ [l ++ u]) = e.join (ls ++ [l]) ++ u := by
  by_cases hls : ls = []
  · rw [hls, List.nil_append, List.nil_append, join_singleton, join_singleton]
  · rw [join_append e hls (List.cons_ne_nil _ _), join_append e hls (List.cons_ne_nil _ _),
      join_singleton, join_singleton, List.append_assoc _ l u]

theorem mem_join {e : LineEnding} {ls : List Text} {c : Char} (h : c ∈ e.join ls) :
    c ∈ e.text ∨ ∃ l ∈ ls, c ∈ l :=
  Text.mem_join h

/-- Lines that hold no break are found again. -/
theorem split_join {e : LineEnding} {ls : List Text} (hne : ls ≠ [])
    (h : ∀ l ∈ ls, ¬ e.text <:+: l) : e.split (e.join ls) = ls := by
  induction ls with
  | nil => exact absurd rfl hne
  | cons l ls ih =>
    rw [List.forall_mem_cons] at h
    by_cases hls : ls = []
    · rw [hls, join_singleton, split_eq_singleton h.1]
    · rw [join_cons e l hls, split_append_break, split_eq_singleton h.1, ih hls h.2,
        List.singleton_append]

theorem infix_join_of_mem {e : LineEnding} {ls : List Text} : ∀ l ∈ ls, l <:+: e.join ls :=
  Text.infix_join_of_mem

theorem infix_of_mem_split {e : LineEnding} {t : Text} : ∀ l ∈ e.split t, l <:+: t := by
  intro l hl
  have h := infix_join_of_mem (e := e) l hl
  rwa [join_split] at h

theorem prefix_of_split_eq_cons {e : LineEnding} {t l : Text} {ls : List Text}
    (h : e.split t = l :: ls) : l <+: t := by
  rw [← join_split e t, h]
  exact Text.prefix_join_cons l ls

theorem not_infix_of_mem_split {e : LineEnding} {t : Text} :
    ∀ l ∈ e.split t, ¬ e.text <:+: l := by
  fun_induction split e t with
  | case1 e => cases e <;> simp [text]
  | case2 t ih => exact List.forall_mem_cons.2 ⟨by simp [text], ih⟩
  | case3 t ih => exact List.forall_mem_cons.2 ⟨by simp [text], ih⟩
  | case4 e c t h h' ih =>
    obtain ⟨l, ls, hl⟩ := List.exists_cons_of_ne_nil (split_ne_nil e t)
    obtain ⟨s, hs⟩ := prefix_of_split_eq_cons hl
    rw [hl] at ih ⊢
    refine List.forall_mem_cons.2 ⟨fun hi => ?_, fun m hm => ih m (List.mem_cons_of_mem _ hm)⟩
    rcases List.infix_cons_iff.1 hi with hi | hi
    · -- a break at the new character would have been cut
      refine not_prefix_cons h h' (hi.trans ?_)
      rw [← hs, ← List.cons_append]
      exact List.prefix_append _ _
    · exact ih l List.mem_cons_self hi

end LineEnding

namespace Fence

theorem inline_of_forall_isIndent {i : Text} (hi : ∀ c ∈ i, Text.isIndent c = true) :
    i.Inline := by
  intro c hc
  have h := hi c hc
  constructor
  · rintro rfl
    revert h
    decide
  · rintro rfl
    revert h
    decide

theorem inline_delimiter : delimiter.Inline := by decide

theorem inline_tag (f : Fence) : f.tag.Inline := by
  intro c hc
  have h := List.mem_takeWhile_imp hc
  simpa using h

end Fence
end FenceSync
