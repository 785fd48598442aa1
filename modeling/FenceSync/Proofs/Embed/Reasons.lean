import FenceSync.Proofs.Directive.Preceding
import FenceSync.Proofs.Directive.Target
import FenceSync.Proofs.Embed.Structure
/-!
# Reasons that no block has

A reference that is read out of a comment is a word, and every word holds at least the beginning of a
path; every tag that is known has a family of comments. So two of the reasons to leave a block alone
never come up in a document.
-/
namespace FenceSync

open Comment (Solid)

/-- A reference on the first line of a block has no blanks in it, whatever the family. -/
theorem Comment.solid_of_reference? {family : CommentFamily} {line reference : Text}
    (h : reference? family line = some reference) : Solid reference := by
  obtain ⟨hne, hword⟩ := reference?_eq_some_iff.1 h
  refine ⟨hne, ?_⟩
  by_cases hf : family = .xml
  · subst hf
    obtain ⟨u, v, -, hv⟩ := Text.exists_of_firstMatch? hword
    obtain ⟨-, r, -, -, hclosed⟩ := xmlWord?_eq_some_iff.1 hv
    exact hclosed.solid
  · rw [word?_of_ne_xml hf] at hword
    obtain ⟨marker, -, hmarked⟩ := Option.bind_eq_some_iff.1 hword
    exact (suffix_of_markedWord? hmarked).2

/-- Nor has the path of a comment in front of a block. -/
theorem Preceding.solid_of_override? {gap path : Text}
    (h : (scan gap).override? = some path) : Solid path := by
  obtain ⟨-, v, -, ⟨-, c, w, r, -, hc, hclosed, rfl⟩, -⟩ := findOverride?_eq_some_iff.1 h
  exact ⟨List.cons_ne_nil c w, List.forall_mem_cons.2 ⟨hc, hclosed.solid⟩⟩

theorem Target.ofReference_ne_noPath {reference : Text} (h : Solid reference) :
    ofReference reference ≠ .error .noPath := by
  obtain ⟨hne, hblank⟩ := h
  obtain ⟨target, htarget⟩ := exists_ofWord?_eq_some hblank hne
  rw [ofReference_of_ofWord? (fun c hc => hblank c (List.mem_of_head? hc)) htarget]
  split <;> simp

theorem FileType.exists_family?_eq_some (fileType : FileType) :
    ∃ family, fileType.family? = some family := by
  cases fileType <;> exact ⟨_, rfl⟩

/-- A reason that a block of a document can have. -/
def SkipReason.Arises (reason : SkipReason) : Prop :=
  reason ≠ .noTarget ∧ ∀ extension, reason ≠ .unresolvedCommentFamily extension

namespace Directive

theorem arises_of_ofReference {reference : Text} (h : Solid reference) {override? : Option Text}
    {reason : SkipReason} (hr : ofReference reference override? = .error reason) :
    reason.Arises := by
  rw [ofReference] at hr
  split at hr
  · next hnone => exact absurd hnone (Target.ofReference_ne_noPath h)
  · cases hr
    simp [SkipReason.Arises]
  · cases hr

theorem arises_of_firstLineReference {e : LineEnding} {f : Fence} {reason : SkipReason}
    (h : firstLineReference e f = .error reason) : reason.Arises := by
  rw [firstLineReference] at h
  split at h
  · cases h
    simp [SkipReason.Arises]
  · split at h
    · cases h
      simp [SkipReason.Arises]
    · split at h
      · cases h
        simp [SkipReason.Arises]
      · next fileType _ =>
        obtain ⟨family, hfamily⟩ := fileType.exists_family?_eq_some
        rw [hfamily] at h
        dsimp only at h
        split at h <;> cases h
        simp [SkipReason.Arises]

theorem arises_of_ofFence {e : LineEnding} {f : Fence} {gap : Text} {reason : SkipReason}
    (h : ofFence e f (Preceding.scan gap) = .error reason) : reason.Arises := by
  rw [ofFence] at h
  split at h
  · cases h
    simp [SkipReason.Arises]
  · split at h
    · next path hpath => exact arises_of_ofReference (Preceding.solid_of_override? hpath) h
    · split at h
      · next hreason =>
        cases h
        exact arises_of_firstLineReference hreason
      · next reference hreference =>
        obtain ⟨_, _, _, _, -, -, -, -, -, hr⟩ := firstLineReference_eq_ok_iff.1 hreference
        exact arises_of_ofReference (Comment.solid_of_reference? hr) h

end Directive

theorem Snippet.arises_of_ofTarget {fs : FileSystem} {options : EmbedOptions} {document : Path}
    {e : LineEnding} {target : Target} {reason : SkipReason}
    (h : ofTarget fs options document e target = .error reason) : reason.Arises := by
  simp only [ofTarget] at h
  split at h
  · cases h
    simp [SkipReason.Arises]
  · split at h
    · cases h
      simp [SkipReason.Arises]
    · split at h <;> cases h
      simp [SkipReason.Arises]

theorem Document.arises_of_fill {fs : FileSystem} {options : EmbedOptions} {document : Path}
    {e : LineEnding} {gap : Text} {f : Fence} {reason : SkipReason}
    (h : (fill fs options document e gap f).outcome = .unchanged reason) : reason.Arises := by
  rw [fill] at h
  split at h
  · next hreason =>
    cases h
    exact Directive.arises_of_ofFence hreason
  · split at h
    · next hreason =>
      cases h
      exact Snippet.arises_of_ofTarget hreason
    · simp only [Outcome.ofRendered] at h
      split at h <;> cases h
      simp [SkipReason.Arises]

/-- No block of a document is left alone for want of a target or of a family of comments: what a
comment refers to is a word, a word always has a target or a malformed range, and a known tag has a
family. -/
theorem arises_of_mem_blocks_embed (fs : FileSystem) (options : EmbedOptions) (document : Path)
    (source : Text) :
    (∀ b ∈ (Document.embed fs options document source).blocks, ∀ reason,
      b.outcome = .unchanged reason →
        reason ≠ .noTarget ∧ ∀ extension, reason ≠ .unresolvedCommentFamily extension) ∧
    (∀ family line reference, Comment.reference? family line = some reference →
      Solid reference) ∧
    (∀ gap path, (Preceding.scan gap).override? = some path → Solid path) ∧
    (∀ reference, Solid reference → Target.ofReference reference ≠ .error .noPath) ∧
    ∀ tag fileType, FileType.ofTag? tag = some fileType →
      ∃ family, fileType.family? = some family := by
  refine ⟨fun b hb reason hreason => ?_, fun _ _ _ => Comment.solid_of_reference?,
    fun _ _ => Preceding.solid_of_override?, fun _ => Target.ofReference_ne_noPath,
    fun _ fileType _ => fileType.exists_family?_eq_some⟩
  have hmem := List.mem_map_of_mem (f := (·.outcome)) hb
  rw [Document.map_outcome_embed] at hmem
  obtain ⟨x, -, hx⟩ := List.mem_map.1 hmem
  exact Document.arises_of_fill (hx.trans hreason)

end FenceSync
