import FenceSync.Proofs.Document.Scanner
/-!
# Places of blocks

The blocks of a document are those of the plain scanner and those of the pattern. They stand in order
without overlap at the bytes where they are said to stand; no delimiter is left in front of a block,
and none that could be closed behind the last one.
-/
namespace FenceSync

theorem Text.length_bytes (t : Text) : t.bytes.length = t.byteSize := by
  induction t with
  | nil => rfl
  | cons c t ih =>
    rw [bytes, List.flatMap_cons, List.length_append, ← bytes, ih, byteSize,
      String.length_utf8EncodeChar]

theorem Text.bytes_append (s t : Text) : bytes (s ++ t) = s.bytes ++ t.bytes :=
  List.flatMap_append

theorem Text.byteSize_pos {t : Text} (h : t ≠ []) : 0 < t.byteSize := by
  obtain ⟨c, r, rfl⟩ := List.exists_cons_of_ne_nil h
  rw [byteSize]
  have := c.utf8Size_pos
  omega

namespace Layout

variable {start : Nat} {bs : List (Text × Fence)}

theorem le_of_mem_placedFrom : ∀ x ∈ placedFrom start bs, start ≤ x.1 := by
  induction bs generalizing start with
  | nil => simp [placedFrom]
  | cons x bs ih =>
    obtain ⟨g, f⟩ := x
    intro y hy
    rcases List.mem_cons.1 hy with rfl | hy
    · exact Nat.le_add_right _ _
    · have := ih y hy
      omega

/-- A block ends before the next one begins. -/
theorem pairwise_placedFrom :
    (placedFrom start bs).Pairwise fun x y => x.1 + x.2.raw.byteSize ≤ y.1 := by
  induction bs generalizing start with
  | nil => exact List.Pairwise.nil
  | cons x bs ih =>
    obtain ⟨g, f⟩ := x
    exact List.Pairwise.cons (fun y hy => le_of_mem_placedFrom y hy) ih

/-- A block stands in the text behind as many bytes as are said. -/
theorem exists_append_of_mem_placedFrom (before tail : Text) :
    ∀ x ∈ placedFrom before.byteSize bs, ∃ a b : Text,
      before ++ text ⟨bs, tail⟩ = a ++ x.2.raw ++ b ∧ a.byteSize = x.1 := by
  induction bs generalizing before with
  | nil => simp [placedFrom]
  | cons x bs ih =>
    obtain ⟨g, f⟩ := x
    intro y hy
    rcases List.mem_cons.1 hy with rfl | hy
    · refine ⟨before ++ g, text ⟨bs, tail⟩, ?_, Text.byteSize_append _ _⟩
      rw [text_cons]
      simp only [List.append_assoc]
    · rw [← Text.byteSize_append, ← Text.byteSize_append] at hy
      obtain ⟨a, b, hab, ha⟩ := ih (before ++ g ++ f.raw) y hy
      refine ⟨a, b, ?_, ha⟩
      rw [← hab, text_cons]
      simp only [List.append_assoc]

theorem bytes_of_mem_placed (t : Text) : ∀ x ∈ (ofText t).placed,
    (t.bytes.drop x.1).take x.2.raw.byteSize = x.2.raw.bytes := by
  intro x hx
  obtain ⟨a, b, hab, ha⟩ := exists_append_of_mem_placedFrom [] (ofText t).tail x hx
  have htext : text ⟨(ofText t).blocks, (ofText t).tail⟩ = t := text_ofText t
  rw [List.nil_append, htext] at hab
  rw [hab, Text.bytes_append, Text.bytes_append, ← ha, ← Text.length_bytes, ← Text.length_bytes,
    List.append_assoc, List.drop_left, List.take_left]

/-- No delimiter stands in front of a block, and the block takes all of its indentation. -/
theorem gap_of_mem_blocks (t : Text) : ∀ x ∈ (ofText t).blocks,
    ¬ delimiter <:+: x.1 ∧ ∀ c ∈ x.1.getLast?, Text.isIndent c = false := by
  intro x hx
  have h := standsAfter_of_mem_blocks t x hx
  refine ⟨fun hi => Text.not_infix_of_cut? (by decide) h.first ?_, h.gap_end⟩
  exact hi.trans List.infix_append_left

end Layout

/-- A text without a closed block has no place where one begins. -/
theorem Fence.opening?_eq_none {a t : Text} (h : next? (a ++ t) = none) : opening? t = none := by
  induction a with
  | nil =>
    rw [Option.eq_none_iff_forall_ne_some]
    rintro ⟨f, r⟩ ho
    rw [List.nil_append, next?_of_opening? ho] at h
    cases h
  | cons c a ih =>
    apply ih
    rw [List.cons_append, next?_cons] at h
    cases ho : opening? (c :: (a ++ t)) with
    | some x =>
      rw [ho] at h
      cases h
    | none =>
      rw [ho] at h
      exact Option.map_eq_none_iff.1 h

/-- Behind the last block a delimiter is followed by no line that begins with one. -/
theorem Layout.tail_ne (t : Text) {a b i c : Text} (hi : ∀ x ∈ i, Text.isIndent x = true) :
    (ofText t).tail ≠ a ++ delimiter ++ b ++ '\n' :: (i ++ delimiter ++ c) := by
  intro h
  have hnone := next?_tail t
  rw [h, List.append_assoc, List.append_assoc] at hnone
  have ho := Fence.opening?_eq_none hnone
  have hclosing : Fence.closing? (b ++ '\n' :: (i ++ delimiter ++ c)) ≠ none := by
    intro hn
    have hd := Fence.closing?_eq_none_iff.1 hn b _ rfl
    rw [Fence.delimiterLine?_append hi] at hd
    cases hd
  obtain ⟨⟨inside, r⟩, hin⟩ := Option.ne_none_iff_exists'.1 hclosing
  obtain ⟨heq, hclosed⟩ := Fence.closing?_eq_some_iff.1 hin
  have hsome : Fence.opening? (delimiter ++ (b ++ '\n' :: (i ++ delimiter ++ c))) =
      some (⟨[], inside⟩, r) :=
    Fence.opening?_eq_some_iff.2 ⟨by rw [heq]; rfl, by simp, hclosed⟩
  rw [hsome] at ho
  cases ho

/-- The blocks of a document are those that the plain scanner finds, and the matches of the pattern,
in order and without overlap; each stands where it is said to stand. The gaps in front of them hold no
delimiter and end in no space or tab, and nothing behind them can be closed. -/
theorem placed_ofText (t : Text) :
    (Layout.ofText t).placed = Scanner.fences t ∧
    (Layout.ofText t).placed = (Pattern.searchAll Fence.pattern 0 none t).map
      (fun (offset, parts) => (offset, Fence.ofParts parts)) ∧
    (Layout.ofText t).placed.Pairwise (fun x y => x.1 + x.2.raw.byteSize ≤ y.1) ∧
    (∀ x ∈ (Layout.ofText t).placed, 0 < x.2.raw.byteSize ∧
      (t.bytes.drop x.1).take x.2.raw.byteSize = x.2.raw.bytes) ∧
    (∀ x ∈ (Layout.ofText t).blocks,
      ¬ delimiter <:+: x.1 ∧ ∀ c ∈ x.1.getLast?, Text.isIndent c = false) ∧
    (∀ a b i c : Text, (∀ x ∈ i, Text.isIndent x = true) →
      (Layout.ofText t).tail ≠ a ++ delimiter ++ b ++ '\n' :: (i ++ delimiter ++ c)) := by
  refine ⟨?_, (Fence.map_searchAll_pattern 0 none t).symm, Layout.pairwise_placedFrom,
    fun x hx => ⟨?_, Layout.bytes_of_mem_placed t x hx⟩, Layout.gap_of_mem_blocks t,
    fun a b i c hi => Layout.tail_ne t hi⟩
  · have h := Scanner.fencesFrom_eq (t := t) 0 (Nat.zero_le _)
    rw [List.take_zero, List.drop_zero] at h
    exact h.symm
  · exact Text.byteSize_pos (List.ne_nil_of_length_pos x.2.length_raw_pos)

end FenceSync
