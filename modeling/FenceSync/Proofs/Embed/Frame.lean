import FenceSync.Proofs.Document.Placed
import FenceSync.Proofs.Embed.Structure
/-!
# What embedding leaves alone

The new document is the old one with the texts of its blocks exchanged. All that stands between two
blocks is copied, from the end of the first one to the offset of the second, and so is every block
that is not replaced, whatever the reason.
-/
namespace FenceSync

def Text.weave (tail : Text) : List Text → List Text → Text
  | gap :: gaps, t :: ts => gap ++ t ++ weave tail gaps ts
  | _, _ => tail

/-- The bytes of the new document, written from left to right: those of the old one from `start` up
to the offset of a block, the text that the block ends up with, and the rest from its end on. -/
def Document.copyFrom (old : Bytes) (start : Nat) : List (Nat × Fence) → List Outcome → Bytes
  | (offset, f) :: fences, o :: outcomes =>
    (old.take offset).drop start ++ (o.text f.raw).bytes ++
      copyFrom old (offset + f.raw.byteSize) fences outcomes
  | _, _ => old.drop start

namespace Layout

theorem map_snd_placedFrom (start : Nat) (bs : List (Text × Fence)) :
    (placedFrom start bs).map (·.2) = bs.map (·.2) := by
  induction bs generalizing start with
  | nil => rfl
  | cons x bs ih => simp [placedFrom, ih]

theorem text_eq_weave (bs : List (Text × Fence)) (tail : Text) :
    text ⟨bs, tail⟩ = Text.weave tail (bs.map (·.1)) (bs.map fun x => x.2.raw) := by
  induction bs with
  | nil => rfl
  | cons x bs ih => rw [text_cons, ih, List.map_cons, List.map_cons, Text.weave]

/-- Copying along the offsets of the blocks finds the gaps in front of them. -/
theorem copyFrom_placedFrom (before tail : Text) {bs : List (Text × Fence)} (os : List Outcome)
    (h : os.length = bs.length) :
    Document.copyFrom (before ++ text ⟨bs, tail⟩).bytes before.byteSize
        (placedFrom before.byteSize bs) os =
      (Text.weave tail (bs.map (·.1)) (List.zipWith (fun x o => o.text x.2.raw) bs os)).bytes := by
  induction bs generalizing before os with
  | nil =>
    have hdrop : (before.bytes ++ tail.bytes).drop before.byteSize = tail.bytes := by
      rw [← Text.length_bytes, List.drop_left]
    have htail : text ⟨[], tail⟩ = tail := rfl
    simp only [placedFrom, Document.copyFrom, htail, Text.bytes_append, hdrop, List.map_nil,
      List.zipWith_nil_left, Text.weave]
  | cons x bs ih =>
    obtain ⟨gap, f⟩ := x
    obtain ⟨o, os, rfl⟩ := List.exists_cons_of_length_eq_add_one h
    have hold : before ++ text ⟨(gap, f) :: bs, tail⟩ =
        before ++ gap ++ f.raw ++ text ⟨bs, tail⟩ := by
      rw [text_cons]
      simp only [List.append_assoc]
    have hrest := ih (before ++ gap ++ f.raw) os (Nat.succ.inj h)
    rw [Text.byteSize_append, Text.byteSize_append] at hrest
    have hgap : ((before ++ gap ++ f.raw ++ text ⟨bs, tail⟩).bytes.take
        (before.byteSize + gap.byteSize)).drop before.byteSize = gap.bytes := by
      rw [← Text.length_bytes before, ← Text.length_bytes gap]
      simp [Text.bytes_append, List.take_append]
    rw [placedFrom, Document.copyFrom, hold, hrest, hgap, List.map_cons, List.zipWith_cons_cons,
      Text.weave, Text.bytes_append, Text.bytes_append]

end Layout

namespace Scanner

/-- The scanner finds the blocks of the layout. -/
theorem fences_eq_placedFrom (t : Text) :
    fences t = Layout.placedFrom 0 (Layout.ofText t).blocks :=
  fencesFrom_eq 0 (Nat.zero_le _)

theorem map_snd_fences (t : Text) : (fences t).map (·.2) = (Layout.ofText t).blocks.map (·.2) := by
  rw [fences_eq_placedFrom, Layout.map_snd_placedFrom]

theorem length_fences (t : Text) : (fences t).length = (Layout.ofText t).blocks.length := by
  simpa using congrArg List.length (map_snd_fences t)

theorem map_raw_fences (t : Text) :
    (fences t).map (fun x => x.2.raw) = (Layout.ofText t).blocks.map fun x => x.2.raw := by
  have h := congrArg (List.map Fence.raw) (map_snd_fences t)
  rwa [List.map_map, List.map_map] at h

theorem zipWith_text_fences (t : Text) (bs : List Block) :
    List.zipWith (fun x b => b.outcome.text x.2.raw) (fences t) bs =
      List.zipWith (fun x o => o.text x.2.raw) (Layout.ofText t).blocks (bs.map (·.outcome)) := by
  have h := congrArg (List.zipWith (fun f o => Outcome.text (Fence.raw f) o) ·
    (bs.map (·.outcome))) (map_snd_fences t)
  simpa only [List.zipWith_map_left, List.zipWith_map_right] using h

end Scanner

namespace Document

variable (fs : FileSystem) (options : EmbedOptions) (document : Path) (source : Text)

theorem length_blocks_embed :
    (embed fs options document source).blocks.length = (Layout.ofText source).blocks.length := by
  simpa using congrArg List.length (map_outcome_embed fs options document source)

theorem assemble_fillAll_eq_weave (e : LineEnding) (bs : List (Text × Fence)) (tail : Text) :
    assemble (fillAll fs options document e ⟨bs, tail⟩) tail =
      Text.weave tail (bs.map (·.1)) (List.zipWith (fun x o => o.text x.2.raw) bs
        (bs.map fun x => (fill fs options document e x.1 x.2).outcome)) := by
  induction bs with
  | nil => rfl
  | cons x bs ih =>
    have hfill : fillAll fs options document e ⟨x :: bs, tail⟩ =
        fill fs options document e x.1 x.2 :: fillAll fs options document e ⟨bs, tail⟩ := rfl
    rw [hfill, assemble_cons, ih, gap_fill, Filled.text_eq, fence_fill]
    rfl

/-- The new document has the gaps and the tail of the old one. -/
theorem output_embed_eq_weave : (embed fs options document source).output =
    Text.weave (Layout.ofText source).tail ((Layout.ofText source).blocks.map (·.1))
      (List.zipWith (fun x o => o.text x.2.raw) (Layout.ofText source).blocks
        ((embed fs options document source).blocks.map (·.outcome))) := by
  rw [map_outcome_embed]
  exact assemble_fillAll_eq_weave fs options document _ _ _

end Document

/-- Embedding touches nothing but the blocks that it reports as replaced: the document falls apart
into gaps and blocks, and the new one has the same gaps with the texts of the blocks between them,
which are the old ones unless a block is replaced. The gaps are what stands between the offsets. -/
theorem embed_keeps_rest (fs : FileSystem) (options : EmbedOptions) (document : Path)
    (source : Text) :
    let fences := Scanner.fences source
    let report := Document.embed fs options document source
    report.blocks.length = fences.length ∧
    (∃ (gaps : List Text) (tail : Text), gaps.length = fences.length ∧
      source = Text.weave tail gaps (fences.map fun x => x.2.raw) ∧
      report.output = Text.weave tail gaps
        (List.zipWith (fun x b => b.outcome.text x.2.raw) fences report.blocks)) ∧
    report.output.bytes =
      Document.copyFrom source.bytes 0 fences (report.blocks.map (·.outcome)) := by
  intro fences report
  have hblocks := Document.length_blocks_embed fs options document source
  have houtput := Document.output_embed_eq_weave fs options document source
  have hsource := Layout.text_ofText source
  refine ⟨hblocks.trans (Scanner.length_fences source).symm,
    ⟨(Layout.ofText source).blocks.map (·.1), (Layout.ofText source).tail, ?_, ?_, ?_⟩, ?_⟩
  · rw [List.length_map, Scanner.length_fences]
  · rw [Scanner.map_raw_fences, ← Layout.text_eq_weave, hsource]
  · rw [Scanner.zipWith_text_fences, houtput]
  · have hcopy := Layout.copyFrom_placedFrom [] (Layout.ofText source).tail
      (report.blocks.map (·.outcome)) ((List.length_map _).trans hblocks)
    rw [List.nil_append, ← houtput, hsource] at hcopy
    have hplaced : fences = Layout.placedFrom 0 _ := Scanner.fences_eq_placedFrom source
    rw [← hcopy, hplaced]
    rfl

end FenceSync
