import FenceSync.Proofs.Text.Trim
import FenceSync.Directive.Comment
/-!
# References in trimmed lines

The reference of a comment line does not depend on the blanks around the line: the line may be
trimmed and put behind another indentation.
-/
namespace FenceSync.Comment

/-- A text that can be told from the blanks around it. -/
def Solid (t : Text) : Prop := t ≠ [] ∧ ∀ c ∈ t, Text.isBlank c = false

instance (t : Text) : Decidable (Solid t) :=
  @instDecidableAnd _ _ inferInstance (List.decidableBAll _ t)

theorem solid_marker {f : CommentFamily} {marker : Text} (h : f.marker? = some marker) :
    Solid marker := by
  cases f <;> cases h <;> decide

theorem solid_xmlOpen : Solid xmlOpen := by decide

theorem solid_xmlClose : Solid xmlClose := by decide

namespace Solid

variable {p : Text} (hp : Solid p)

include hp

theorem not_mem {c : Char} (hc : Text.isBlank c = true) : c ∉ p := by
  intro h
  have h' := hp.2 c h
  rw [hc] at h'
  cases h'

theorem after?_nil : Text.after? p [] = none := by
  rw [Text.after?_eq_none_iff, List.prefix_nil]
  exact hp.1

/-- Nothing solid begins with a blank. -/
theorem after?_cons {c : Char} (hc : Text.isBlank c = true) (t : Text) :
    Text.after? p (c :: t) = none := by
  rw [← List.nil_append (c :: t), Text.after?_append_cons (hp.not_mem hc), hp.after?_nil,
    Option.map_none]

/-- Nothing solid ends in blanks. -/
theorem after?_append {b : Text} (hb : ∀ c ∈ b, Text.isBlank c = true) (t : Text) :
    Text.after? p (t ++ b) = (Text.after? p t).map (· ++ b) := by
  cases b with
  | nil => cases h : Text.after? p t <;> simp [h]
  | cons c b => exact Text.after?_append_cons (hp.not_mem (hb c List.mem_cons_self)) t b

theorem startsWith_trimStart_append {b : Text} (hb : ∀ c ∈ b, Text.isBlank c = true) (t : Text) :
    Text.startsWith p (Text.trimStart (t ++ b)) = Text.startsWith p (Text.trimStart t) := by
  rw [Text.trimStart_append_blanks hb]
  split
  · next h => rw [h]
  · rw [Text.startsWith, hp.after?_append hb, Option.isSome_map, Text.startsWith]

theorem wordBefore?_append {b : Text} (hb : ∀ c ∈ b, Text.isBlank c = true) (t : Text) :
    wordBefore? p (t ++ b) = wordBefore? p t := by
  have hnil : wordBefore? p [] = none := by
    rw [wordBefore?, if_neg (by simpa using hp.1)]
  induction t with
  | nil =>
    rw [List.nil_append, hnil]
    cases b with
    | nil => exact hnil
    | cons c b =>
      have hs : Text.trimStart (c :: b) = [] := List.dropWhile_eq_nil_iff.2 hb
      rw [wordBefore?, hs, Text.startsWith, hp.after?_nil, hb c List.mem_cons_self]
      rfl
  | cons c t ih =>
    have hs := hp.startsWith_trimStart_append hb (c :: t)
    rw [List.cons_append] at hs
    rw [List.cons_append, wordBefore?, wordBefore?, hs, ih]

end Solid

theorem xmlWord?_cons {c : Char} (hc : Text.isBlank c = true) (t : Text) :
    xmlWord? (c :: t) = none := by
  rw [xmlWord?, solid_xmlOpen.after?_cons hc, Option.bind_none]

theorem xmlWord?_append {b : Text} (hb : ∀ c ∈ b, Text.isBlank c = true) (t : Text) :
    xmlWord? (t ++ b) = xmlWord? t := by
  rw [xmlWord?, xmlWord?, solid_xmlOpen.after?_append hb]
  cases Text.after? xmlOpen t with
  | none => rfl
  | some r =>
    rw [Option.map_some, Option.bind_some, Option.bind_some, Text.trimStart_append_blanks hb]
    split
    · next h => rw [h]
    · exact solid_xmlClose.wordBefore?_append hb _

def markedWord? (marker t : Text) : Option Text := (Text.after? marker t).bind finalWord?

theorem markedWord?_cons {marker : Text} (hm : Solid marker) {c : Char}
    (hc : Text.isBlank c = true) (t : Text) : markedWord? marker (c :: t) = none := by
  rw [markedWord?, hm.after?_cons hc, Option.bind_none]

/-- A final word has no blanks in it, and at most one in front of it. -/
theorem finalWord?_eq_some_iff {t w : Text} : finalWord? t = some w ↔
    (∀ c ∈ w, Text.isBlank c = false) ∧ (t = w ∨ ∃ c, Text.isBlank c = true ∧ t = c :: w) := by
  have hany : ∀ r : Text, r.any Text.isBlank = true ↔ ¬∀ c ∈ r, Text.isBlank c = false := by simp
  cases t with
  | nil =>
    constructor
    · rintro ⟨⟩
      simp
    · rintro ⟨-, rfl | ⟨c, -, hc⟩⟩
      · rfl
      · cases hc
  | cons c r =>
    simp only [finalWord?, hany, Option.ite_none_left_eq_some, not_not, Option.some.injEq]
    split
    · next hc =>
      constructor
      · rintro ⟨hr, rfl⟩
        exact ⟨hr, .inr ⟨c, hc, rfl⟩⟩
      · rintro ⟨hw, rfl | ⟨c', -, he⟩⟩
        · rw [hw c List.mem_cons_self] at hc
          cases hc
        · cases he
          exact ⟨hw, rfl⟩
    · next hc =>
      constructor
      · rintro ⟨hr, rfl⟩
        exact ⟨hr, .inl rfl⟩
      · rintro ⟨hw, rfl | ⟨c', hc', he⟩⟩
        · exact ⟨hw, rfl⟩
        · cases he
          exact absurd hc' hc

theorem markedWord?_eq_some_iff {marker t w : Text} : markedWord? marker t = some w ↔
    (∀ c ∈ w, Text.isBlank c = false) ∧
      (t = marker ++ w ∨ ∃ c, Text.isBlank c = true ∧ t = marker ++ c :: w) := by
  rw [markedWord?, Option.bind_eq_some_iff]
  constructor
  · rintro ⟨r, hr, hw⟩
    obtain rfl := Text.eq_append_of_after? hr
    obtain ⟨hb, rfl | ⟨c, hc, rfl⟩⟩ := finalWord?_eq_some_iff.1 hw
    · exact ⟨hb, .inl rfl⟩
    · exact ⟨hb, .inr ⟨c, hc, rfl⟩⟩
  · rintro ⟨hb, rfl | ⟨c, hc, rfl⟩⟩
    · exact ⟨w, Text.after?_append marker w, finalWord?_eq_some_iff.2 ⟨hb, .inl rfl⟩⟩
    · exact ⟨c :: w, Text.after?_append marker (c :: w),
        finalWord?_eq_some_iff.2 ⟨hb, .inr ⟨c, hc, rfl⟩⟩⟩

/-- A word that a marker announces runs to the end of the line. -/
theorem suffix_of_markedWord? {marker line w : Text}
    (h : Text.firstMatch? (markedWord? marker) line = some w) :
    w <:+ line ∧ ∀ c ∈ w, Text.isBlank c = false := by
  obtain ⟨u, v, rfl, hv⟩ := Text.exists_of_firstMatch? h
  obtain ⟨hb, rfl | ⟨c, -, rfl⟩⟩ := markedWord?_eq_some_iff.1 hv
  · exact ⟨⟨u ++ marker, by simp⟩, hb⟩
  · exact ⟨⟨u ++ marker ++ [c], by simp⟩, hb⟩

theorem markedWord?_trim {marker line w i : Text} (hm : Solid marker)
    (hi : ∀ c ∈ i, Text.isBlank c = true) (hw : w ≠ [])
    (h : Text.firstMatch? (markedWord? marker) line = some w) :
    Text.firstMatch? (markedWord? marker) (i ++ Text.trim line) = some w := by
  obtain ⟨a, b, ha, hb, hline⟩ := Text.exists_eq_append_trim line
  obtain ⟨⟨x, hx⟩, hword⟩ := suffix_of_markedWord? h
  have hnil : b = [] := by
    rw [List.eq_nil_iff_forall_not_mem]
    intro c hc
    obtain ⟨l, hl⟩ : ∃ l, b.getLast? = some l :=
      Option.ne_none_iff_exists'.1 fun h => List.ne_nil_of_mem hc (List.getLast?_eq_none_iff.1 h)
    have hl' : line.getLast? = some l := by rw [hline, List.getLast?_append, hl]; rfl
    rw [← hx, List.getLast?_append_of_ne_nil _ hw] at hl'
    have h1 := hword l (List.mem_of_getLast? hl')
    rw [hb l (List.mem_of_getLast? hl)] at h1
    cases h1
  rw [hline, hnil, List.append_nil,
    Text.firstMatch?_append fun c hc t => markedWord?_cons hm (ha c hc) t] at h
  rw [Text.firstMatch?_append fun c hc t => markedWord?_cons hm (hi c hc) t, h]

theorem xmlWord?_trim {line i : Text} (hi : ∀ c ∈ i, Text.isBlank c = true) :
    Text.firstMatch? xmlWord? (i ++ Text.trim line) = Text.firstMatch? xmlWord? line := by
  obtain ⟨a, b, ha, hb, hline⟩ := Text.exists_eq_append_trim line
  have h : Text.firstMatch? xmlWord? line = Text.firstMatch? xmlWord? (Text.trim line) := by
    conv_lhs => rw [hline, List.append_assoc]
    rw [Text.firstMatch?_append fun c hc t => xmlWord?_cons (ha c hc) t,
      Text.firstMatch?_append_right (fun c hc t => xmlWord?_cons (hb c hc) t) (xmlWord?_append hb)]
  rw [h, Text.firstMatch?_append fun c hc t => xmlWord?_cons (hi c hc) t]

/-- The reference of a line is still there when the line is trimmed and indented again. -/
theorem reference?_append_trim {family : CommentFamily} {line r i : Text}
    (hi : ∀ c ∈ i, Text.isBlank c = true) (h : reference? family line = some r) :
    reference? family (i ++ Text.trim line) = some r := by
  obtain ⟨hw, hne⟩ := Option.filter_eq_some_iff.1 h
  refine Option.filter_eq_some_iff.2 ⟨?_, hne⟩
  have hr : r ≠ [] := by simpa using hne
  cases family with
  | none => cases hw
  | xml =>
    have hx : Text.firstMatch? xmlWord? line = some r := hw
    exact (xmlWord?_trim hi).trans hx
  | slashes => exact markedWord?_trim (solid_marker (f := .slashes) rfl) hi hr hw
  | hash => exact markedWord?_trim (solid_marker (f := .hash) rfl) hi hr hw
  | singleQuote => exact markedWord?_trim (solid_marker (f := .singleQuote) rfl) hi hr hw
  | doublePercent => exact markedWord?_trim (solid_marker (f := .doublePercent) rfl) hi hr hw
  | doubleHyphens => exact markedWord?_trim (solid_marker (f := .doubleHyphens) rfl) hi hr hw

end FenceSync.Comment
