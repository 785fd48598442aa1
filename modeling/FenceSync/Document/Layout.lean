import FenceSync.Document.Fence
/-!
# Layout of a document

A document is a sequence of closed fenced blocks, each with the gap of text in front of it, and a
tail. The main statement says that a layout keeps every character: `(ofText t).text = t`.
-/
namespace FenceSync

structure Layout where
  /-- The blocks in order, each after the text since the block before it. -/
  blocks : List (Text × Fence)
  tail : Text
deriving DecidableEq, Repr

namespace Layout

def text (l : Layout) : Text := (l.blocks.flatMap fun (gap, f) => gap ++ f.raw) ++ l.tail

def ofText (t : Text) : Layout :=
  match _found : Fence.next? t with
  | none => ⟨[], t⟩
  | some (gap, f, rest) =>
    let l := ofText rest
    ⟨(gap, f) :: l.blocks, l.tail⟩
termination_by t.length
decreasing_by
  have := congrArg List.length (Fence.eq_append_of_next? _found)
  have := f.length_raw_pos
  simp only [List.length_append] at *
  omega

def fences (l : Layout) : List Fence := l.blocks.map (·.2)

/-- The blocks with the byte offset of each, the first gap beginning at `start`. -/
def placedFrom (start : Nat) : List (Text × Fence) → List (Nat × Fence)
  | [] => []
  | (gap, f) :: rest =>
    let offset := start + gap.byteSize
    (offset, f) :: placedFrom (offset + f.raw.byteSize) rest

def placed (l : Layout) : List (Nat × Fence) := placedFrom 0 l.blocks

theorem ofText_of_next?_eq_none {t : Text} (h : Fence.next? t = none) : ofText t = ⟨[], t⟩ := by
  rw [ofText]
  split
  · rfl
  · simp_all

theorem ofText_of_next?_eq_some {t g r : Text} {f : Fence} (h : Fence.next? t = some (g, f, r)) :
    ofText t = ⟨(g, f) :: (ofText r).blocks, (ofText r).tail⟩ := by
  rw [ofText]
  split
  · simp_all
  · next h' =>
    rw [h] at h'
    cases h'
    rfl

theorem text_ofText (t : Text) : (ofText t).text = t := by
  fun_induction ofText t with
  | case1 t _ => simp [text]
  | case2 t g f r h l ih =>
    simp only [text] at ih ⊢
    rw [Fence.eq_append_of_next? h, List.flatMap_cons, List.append_assoc, ih]

end Layout
end FenceSync
