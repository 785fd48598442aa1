import FenceSync.Proofs.Document.Breaks
/-!
# Counting line endings

The number of line endings in a text is the number of places at which one begins. It adds up over
the parts of a text, as long as no carriage return of one part meets a line feed of the next.
-/
namespace FenceSync

namespace Text

def occurrences (p : Text) : Text → Nat
  | [] => 0
  | c :: t => (if p.isPrefixOf (c :: t) then 1 else 0) + occurrences p t

/-- No carriage return at the end of one text meets a line feed at the beginning of the next. -/
def Apart (s t : Text) : Prop := '\r' ∈ s.getLast? → '\n' ∉ t.head?

theorem Apart.of_head? {s t : Text} (h : ∀ c ∈ t.head?, c ≠ '\n') : Apart s t :=
  fun _ ht => h _ ht rfl

theorem Apart.of_getLast? {s t : Text} (h : ∀ c ∈ s.getLast?, c ≠ '\r') : Apart s t :=
  fun hs => absurd rfl (h _ hs)

theorem occurrences_cons_eq {p t : Text} {c : Char} (h : ¬ p <+: c :: t) :
    occurrences p (c :: t) = occurrences p t := by
  rw [occurrences, if_neg (by rwa [List.isPrefixOf_iff_prefix]), Nat.zero_add]

end Text

namespace LineEnding

theorem occurrences_break_append (e : LineEnding) (t : Text) :
    Text.occurrences e.text (e.text ++ t) = Text.occurrences e.text t + 1 := by
  cases e with
  | lf => simp [text, Text.occurrences, List.isPrefixOf, Nat.add_comm]
  | crlf => simp [text, Text.occurrences, List.isPrefixOf, Nat.add_comm]

theorem breaks_break_append (e : LineEnding) (t : Text) :
    e.breaks (e.text ++ t) = e.breaks t + 1 := by
  have h := lineCount_eq_breaks_add_one e t
  rw [breaks, lineCount, split_break, List.length_cons, Nat.add_sub_cancel]
  exact h

theorem breaks_cons_eq {e : LineEnding} {c : Char} {t : Text}
    (h : ¬ e.text <+: c :: t) : e.breaks (c :: t) = e.breaks t := by
  rw [breaks, lineCount, split_cons h, List.length_modifyHead, ← lineCount, ← breaks]

/-- Cutting a text at its line endings counts them. -/
theorem breaks_eq_occurrences (e : LineEnding) (t : Text) :
    e.breaks t = Text.occurrences e.text t := by
  fun_induction split e t with
  | case1 e => rfl
  | case2 t ih => exact (breaks_break_append .lf t).trans (ih ▸ (occurrences_break_append .lf t).symm)
  | case3 t ih =>
    exact (breaks_break_append .crlf t).trans (ih ▸ (occurrences_break_append .crlf t).symm)
  | case4 e c t h h' ih =>
    have hc := not_prefix_cons h h'
    rw [breaks_cons_eq hc, Text.occurrences_cons_eq hc, ih]

theorem lineCount_eq_occurrences (e : LineEnding) (t : Text) :
    e.lineCount t = 1 + Text.occurrences e.text t := by
  rw [lineCount_eq_breaks_add_one, breaks_eq_occurrences, Nat.add_comm]

/-- A line ending at the beginning of a text does not reach into a text that is apart from it. -/
theorem prefix_cons_append_iff {e : LineEnding} {c : Char} {s t : Text} (h : Text.Apart (c :: s) t) :
    e.text <+: c :: (s ++ t) ↔ e.text <+: c :: s := by
  cases e with
  | lf => simp [text, List.cons_prefix_cons]
  | crlf =>
    rcases s with - | ⟨d, s⟩
    · rcases t with - | ⟨d, t⟩
      · rfl
      · have hd : c = '\r' → d ≠ '\n' := by simpa [Text.Apart] using h
        simp only [text, List.nil_append, List.cons_prefix_cons, List.nil_prefix, and_true,
          List.prefix_nil]
        constructor
        · rintro ⟨hc, hn⟩
          exact absurd hn.symm (hd hc.symm)
        · rintro ⟨_, hn⟩
          cases hn
    · simp [text, List.cons_prefix_cons]

theorem occurrences_append (e : LineEnding) {s t : Text} (h : Text.Apart s t) :
    Text.occurrences e.text (s ++ t) =
      Text.occurrences e.text s + Text.occurrences e.text t := by
  induction s with
  | nil => simp [Text.occurrences]
  | cons c s ih =>
    have hs : Text.Apart s t := by
      intro hr
      refine h ?_
      cases s with
      | nil => cases hr
      | cons d s => rwa [List.getLast?_cons_cons]
    have hp := prefix_cons_append_iff (e := e) h
    rw [List.cons_append, Text.occurrences, Text.occurrences, ih hs, ← Nat.add_assoc]
    simp only [List.isPrefixOf_iff_prefix, hp]

end LineEnding
end FenceSync
