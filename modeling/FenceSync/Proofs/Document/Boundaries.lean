import FenceSync.Proofs.Document.Closing
import FenceSync.Document.Layout
/-!
# Where blocks stand

A block can be told apart from the text around it: `next?` finds it exactly when it stands after its
gap, which is a condition on the gap and the block alone. So a layout whose blocks stand is what its
own text is read as, and a block may be exchanged for another one with the same indentation.
-/
namespace FenceSync

/-- The opening delimiter is the first of the gap and the block, the indentation is all there is
between the two, and the only closing delimiter is the last. -/
structure Fence.StandsAfter (f : Fence) (gap : Text) : Prop where
  first : Text.cut? delimiter (gap ++ f.indent ++ delimiter) = some (gap ++ f.indent, [])
  indent : ∀ c ∈ f.indent, Text.isIndent c = true
  gap_end : ∀ c ∈ gap.getLast?, Text.isIndent c = false
  closed : Fence.Closed f.inside

namespace Fence

theorem StandsAfter.next?_append {f : Fence} {gap : Text} (h : f.StandsAfter gap) (r : Text) :
    next? (gap ++ f.raw ++ r) = some (gap, f, r) := by
  have hc : Text.cut? delimiter (gap ++ f.raw ++ r) = some (gap ++ f.indent, f.inside ++ r) := by
    rw [← Text.cut?_append h.first (f.inside ++ r), raw]
    simp only [List.append_assoc]
  rw [next?, hc]
  simp only [h.closed.closing?_append, Option.map_some,
    Text.dropEndWhile_append h.gap_end h.indent, Text.takeEndWhile_append h.gap_end h.indent]

theorem standsAfter_of_next? {t g r : Text} {f : Fence} (h : next? t = some (g, f, r)) :
    f.StandsAfter g := by
  simp only [next?] at h
  split at h
  · simp at h
  · next before after hc =>
    obtain ⟨⟨i, r'⟩, h', he⟩ := Option.map_eq_some_iff.1 h
    cases he
    refine ⟨?_, Text.forall_mem_takeEndWhile, Text.getLast?_dropEndWhile, closed_of_closing? h'⟩
    simp only [Text.dropEndWhile_append_takeEndWhile]
    have h1 := Text.cut?_append hc []
    rwa [List.append_nil] at h1

theorem next?_eq_some_iff {t g r : Text} {f : Fence} :
    next? t = some (g, f, r) ↔ t = g ++ f.raw ++ r ∧ f.StandsAfter g := by
  constructor
  · exact fun h => ⟨eq_append_of_next? h, standsAfter_of_next? h⟩
  · rintro ⟨rfl, h⟩
    exact h.next?_append r

theorem after?_delimiter_cons {c : Char} (hc : Text.isIndent c = true) (t : Text) :
    Text.after? delimiter (c :: t) = none := by
  have h : c ∉ delimiter := fun h => by
    rw [isIndent_of_mem_delimiter c h] at hc
    cases hc
  exact Text.after?_append_cons h [] t

theorem cut?_delimiter_append {i : Text} (hi : ∀ c ∈ i, Text.isIndent c = true) (s : Text) :
    Text.cut? delimiter (i ++ delimiter ++ s) = some (i, s) := by
  induction i with
  | nil => exact Text.cut?_of_after? (Text.after?_append delimiter s)
  | cons c i ih =>
    rw [List.cons_append, List.cons_append, Text.cut?,
      after?_delimiter_cons (hi c List.mem_cons_self), ih fun a ha => hi a (List.mem_cons_of_mem _ ha)]
    rfl

/-- A block may stand at the beginning of a text. -/
theorem standsAfter_nil {f : Fence} (hi : ∀ c ∈ f.indent, Text.isIndent c = true)
    (hc : Closed f.inside) : f.StandsAfter [] := by
  refine ⟨?_, hi, by simp, hc⟩
  have hcut := cut?_delimiter_append hi []
  rwa [List.append_nil] at hcut

/-- A block gives way to another one with the same indentation. -/
theorem StandsAfter.exchange {f f' : Fence} {gap : Text} (h : f.StandsAfter gap)
    (hi : f'.indent = f.indent) (hc : Closed f'.inside) : f'.StandsAfter gap :=
  ⟨hi ▸ h.first, hi ▸ h.indent, h.gap_end, hc⟩

/-- A block is not a beginning of another one at the same place. -/
theorem raw_eq_of_append_eq {f f' : Fence} {s s' : Text} (hc : Closed f.inside)
    (hc' : Closed f'.inside) (hi : f'.indent = f.indent) (h : f'.raw ++ s' = f.raw ++ s) :
    f' = f ∧ s' = s := by
  obtain ⟨i, j⟩ := f
  obtain ⟨i', j'⟩ := f'
  cases hi
  simp only [raw, List.append_assoc] at h
  have h1 : j' ++ s' = j ++ s := List.append_cancel_left (List.append_cancel_left h)
  have h2 := hc'.closing?_append s'
  rw [h1, hc.closing?_append s, Option.some.injEq, Prod.mk.injEq] at h2
  exact ⟨congrArg (Fence.mk i) h2.1.symm, h2.2.symm⟩

end Fence

namespace Layout

theorem text_cons (g : Text) (f : Fence) (bs : List (Text × Fence)) (tail : Text) :
    text ⟨(g, f) :: bs, tail⟩ = g ++ f.raw ++ text ⟨bs, tail⟩ := by
  simp [text]

theorem ofText_append {f : Fence} {g : Text} (h : f.StandsAfter g) (r : Text) :
    ofText (g ++ f.raw ++ r) = ⟨(g, f) :: (ofText r).blocks, (ofText r).tail⟩ :=
  ofText_of_next?_eq_some (h.next?_append r)

theorem fences_ofText_append {f : Fence} {g : Text} (h : f.StandsAfter g) (r : Text) :
    (ofText (g ++ f.raw ++ r)).fences = f :: (ofText r).fences := by
  rw [ofText_append h, fences, List.map_cons, fences]

/-- A layout whose blocks stand is the layout of its text. -/
theorem ofText_text {bs : List (Text × Fence)} {tail : Text}
    (hb : ∀ x ∈ bs, x.2.StandsAfter x.1) (ht : Fence.next? tail = none) :
    ofText (text ⟨bs, tail⟩) = ⟨bs, tail⟩ := by
  induction bs with
  | nil =>
    have h : text ⟨[], tail⟩ = tail := by simp [text]
    rw [h, ofText_of_next?_eq_none ht]
  | cons x bs ih =>
    obtain ⟨g, f⟩ := x
    rw [text_cons, ofText_append (hb (g, f) List.mem_cons_self),
      ih fun x hx => hb x (List.mem_cons_of_mem _ hx)]

theorem standsAfter_of_mem_blocks (t : Text) : ∀ x ∈ (ofText t).blocks, x.2.StandsAfter x.1 := by
  fun_induction ofText t with
  | case1 t h => simp
  | case2 t g f r h l ih =>
    intro x hx
    rcases List.mem_cons.1 hx with rfl | hx
    · exact Fence.standsAfter_of_next? h
    · exact ih x hx

theorem next?_tail (t : Text) : Fence.next? (ofText t).tail = none := by
  fun_induction ofText t with
  | case1 t h => exact h
  | case2 t g f r h l ih => exact ih

theorem infix_of_mem_blocks {t : Text} : ∀ x ∈ (ofText t).blocks, x.1 ++ x.2.raw <:+: t := by
  intro x hx
  have h : x.1 ++ x.2.raw <:+: (ofText t).text := by
    rw [text, List.flatMap_def]
    refine List.infix_append_of_infix_left (List.infix_of_mem_flatten ?_)
    exact List.mem_map.2 ⟨x, hx, rfl⟩
  rwa [text_ofText] at h

end Layout
end FenceSync
