import FenceSync.Proofs.Embed.Found
import FenceSync.Proofs.Embed.Written
import FenceSync.Embed.Basic
/-!
# Filled blocks

What `fill` makes of a block that stands in a document. When its directive and the snippet are found
it ends up with the written text, otherwise it stays as it is. The written text stands in the place
of the block, except when the comment line closes it.
-/
namespace FenceSync

namespace Outcome

def text (present : Text) : Outcome → Text
  | .unchanged _ => present
  | .replaced text _ => text

theorem text_ofRendered (rendered present : Text) (n : Nat) :
    (ofRendered rendered present n).text present = rendered := by
  rw [ofRendered]
  split
  · next h => exact h.symm
  · rfl

theorem isReplaced_ofRendered {rendered present : Text} {n : Nat} :
    (ofRendered rendered present n).isReplaced = true ↔ rendered ≠ present := by
  rw [ofRendered]
  split
  · next h => simp [isReplaced, h]
  · next h => simp [isReplaced, h]

end Outcome

namespace Filled

theorem text_eq (b : Filled) : b.text = b.outcome.text b.fence.raw := by
  rw [text]
  cases b.outcome <;> rfl

def result (b : Filled) : Fence where
  indent := b.fence.indent
  inside := b.text.drop (b.fence.indent ++ delimiter).length

theorem result_eq {b : Filled} {f : Fence} (ht : b.text = f.raw) (hi : f.indent = b.fence.indent) :
    b.result = f := by
  obtain ⟨i, t⟩ := f
  cases hi
  rw [result, ht, Fence.raw, List.drop_left]

end Filled

namespace Document

variable (fs : FileSystem) (options : EmbedOptions) (document : Path) (e : LineEnding)

def comment? (f : Fence) (directive : Directive) : Option Text :=
  if directive.override?.isSome || options.stripComment then none
  else some ((f.firstLine? e).getD [])

/-- The directive of a block and the snippet that it names are found. -/
structure Supplied (gap : Text) (f : Fence) (directive : Directive) (snippet : Snippet) : Prop where
  found : Directive.ofFence e f (Preceding.scan gap) = .ok directive
  loaded : Snippet.ofTarget fs options document e directive.target = .ok snippet

variable {fs options document e} {gap : Text} {f : Fence} {directive : Directive} {snippet : Snippet}

theorem renderWith_eq_raw :
    renderWith options e f directive snippet =
      (f.written e (comment? options e f directive) snippet.body).raw := by
  rw [Fence.raw_written]
  rfl

theorem fill_of_supplied (h : Supplied fs options document e gap f directive snippet) :
    fill fs options document e gap f = ⟨gap, f, some directive.reference,
      Outcome.ofRendered (f.written e (comment? options e f directive) snippet.body).raw f.raw
        snippet.lineCount⟩ := by
  rw [fill, h.found]
  simp only [h.loaded, renderWith_eq_raw]

theorem fill_cases (fs : FileSystem) (options : EmbedOptions) (document : Path) (e : LineEnding)
    (gap : Text) (f : Fence) :
    (∃ target? reason, fill fs options document e gap f = ⟨gap, f, target?, .unchanged reason⟩) ∨
      ∃ directive snippet, Supplied fs options document e gap f directive snippet := by
  cases hd : Directive.ofFence e f (Preceding.scan gap) with
  | error reason =>
    refine .inl ⟨none, reason, ?_⟩
    rw [fill, hd]
  | ok directive =>
    cases hs : Snippet.ofTarget fs options document e directive.target with
    | error reason =>
      refine .inl ⟨some directive.reference, reason, ?_⟩
      rw [fill, hd]
      simp only [hs]
    | ok snippet => exact .inr ⟨directive, snippet, hd, hs⟩

theorem Supplied.snippet_eq (h : Supplied fs options document e gap f directive snippet)
    {directive' : Directive} {snippet' : Snippet}
    (h' : Supplied fs options document e gap f directive' snippet') : snippet = snippet' := by
  obtain ⟨hf, hl⟩ := h
  obtain ⟨hf', hl'⟩ := h'
  rw [hf] at hf'
  cases hf'
  rw [hl] at hl'
  cases hl'
  rfl

theorem gap_fill : (fill fs options document e gap f).gap = gap := by
  rcases fill_cases fs options document e gap f with ⟨_, _, h⟩ | ⟨_, _, h⟩
  · rw [h]
  · rw [fill_of_supplied h]

theorem fence_fill : (fill fs options document e gap f).fence = f := by
  rcases fill_cases fs options document e gap f with ⟨_, _, h⟩ | ⟨_, _, h⟩
  · rw [h]
  · rw [fill_of_supplied h]

theorem text_fill_of_supplied (h : Supplied fs options document e gap f directive snippet) :
    (fill fs options document e gap f).text =
      (f.written e (comment? options e f directive) snippet.body).raw := by
  rw [Filled.text_eq, fill_of_supplied h, Outcome.text_ofRendered]

/-- A replaced block reads otherwise than before. -/
theorem isReplaced_fill_iff :
    (fill fs options document e gap f).outcome.isReplaced = true ↔
      (fill fs options document e gap f).text ≠ f.raw := by
  rcases fill_cases fs options document e gap f with ⟨_, _, h⟩ | ⟨_, _, h⟩
  · rw [h]
    simp [Filled.text, Outcome.isReplaced]
  · rw [text_fill_of_supplied h, fill_of_supplied h, Outcome.isReplaced_ofRendered]

theorem Supplied.no_delimiter (h : Supplied fs options document e gap f directive snippet) :
    ¬ delimiter <:+: snippet.body := by
  obtain ⟨-, _, -, h, -⟩ := Snippet.ofTarget_eq_ok_iff.1 h.loaded
  exact h

/-- A comment line that is kept is the first line of the block. -/
theorem Supplied.firstLine?_eq (h : Supplied fs options document e gap f directive snippet)
    {comment : Text} (hc : comment? options e f directive = some comment) :
    f.firstLine? e = some comment := by
  rw [comment?] at hc
  split at hc
  · cases hc
  · next hk =>
    have ho : directive.override? = none := by
      rw [Bool.or_eq_true, not_or] at hk
      simpa using hk.1
    obtain ⟨_, line, _, _, _, hl, _⟩ := Directive.firstLineReference_eq_ok_iff.1
      (Directive.firstLineReference_of_override?_eq_none h.found ho)
    rw [hl, Option.getD_some] at hc
    rw [hl, hc]

/-- The comment line that is written begins with a delimiter. -/
def ClosedByComment (fs : FileSystem) (options : EmbedOptions) (document : Path) (e : LineEnding)
    (gap : Text) (f : Fence) : Prop :=
  ∃ directive snippet comment, Supplied fs options document e gap f directive snippet ∧
    comment? options e f directive = some comment ∧ delimiter <+: Text.trim comment

/-- A block that is not closed by its comment line makes place for another block. -/
theorem exists_text_fill_eq_raw (hf : f.StandsAfter gap)
    (hc : ¬ ClosedByComment fs options document e gap f) :
    ∃ f' : Fence, (fill fs options document e gap f).text = f'.raw ∧ f'.StandsAfter gap ∧
      f'.indent = f.indent ∧ f'.tag = f.tag := by
  rcases fill_cases fs options document e gap f with ⟨_, _, h⟩ | ⟨directive, snippet, h⟩
  · exact ⟨f, by rw [h]; rfl, hf, rfl, rfl⟩
  · refine ⟨_, text_fill_of_supplied h, hf.exchange rfl ?_, rfl, Fence.tag_written e f _ _⟩
    refine Fence.closed_written hf.indent h.no_delimiter fun comment hcomment => ?_
    obtain ⟨hs, hu, -⟩ := Fence.firstLine?_unclosed hf.indent hf.closed (h.firstLine?_eq hcomment)
    exact ⟨hs, hu, fun hd => hc ⟨directive, snippet, comment, h, hcomment, hd⟩⟩

/-- A block that is closed by its comment line leaves a block that ends there. -/
theorem ClosedByComment.exists_text_fill_eq (hf : f.StandsAfter gap)
    (h : ClosedByComment fs options document e gap f) :
    ∃ w ≠ [], (fill fs options document e gap f).text = (f.cutShort e).raw ++ w := by
  obtain ⟨directive, snippet, comment, h, hcomment, hd⟩ := h
  obtain ⟨hs, -, -⟩ := Fence.firstLine?_unclosed hf.indent hf.closed (h.firstLine?_eq hcomment)
  rw [text_fill_of_supplied h, hcomment]
  exact Fence.raw_written_of_delimiter hs hd

theorem ClosedByComment.firstLine?_ne_none (h : ClosedByComment fs options document e gap f) :
    f.firstLine? e ≠ none := by
  obtain ⟨_, _, _, h, hcomment, -⟩ := h
  rw [h.firstLine?_eq hcomment]
  exact Option.some_ne_none _

/-- Besides the lines, a report says of each block what became of it. -/
theorem map_reportFrom (e : LineEnding) (mode : RunMode) (before written : Text)
    (bs : List Filled) :
    (reportFrom e mode before written bs).map (fun b => (b.extension?, b.target?, b.outcome)) =
      bs.map fun b => (b.fence.extension?, b.target?, b.outcome) := by
  induction bs generalizing before written with
  | nil => rfl
  | cons b bs ih => rw [reportFrom, List.map_cons, List.map_cons, ih]

theorem map_outcome_reportFrom (e : LineEnding) (mode : RunMode) (before written : Text)
    (bs : List Filled) :
    (reportFrom e mode before written bs).map (·.outcome) = bs.map (·.outcome) := by
  have h := congrArg (List.map fun x => x.2.2) (map_reportFrom e mode before written bs)
  rwa [List.map_map, List.map_map] at h

theorem assemble_cons (b : Filled) (bs : List Filled) (tail : Text) :
    assemble (b :: bs) tail = b.gap ++ b.text ++ assemble bs tail := by
  rw [assemble, List.flatMap_cons, List.append_assoc, ← assemble]

section

variable (fs : FileSystem) (options : EmbedOptions) (document : Path) (source : Text)
  (mode : RunMode)

theorem output_embed_mode : (embed fs { options with mode } document source).output =
    (embed fs options document source).output :=
  rfl

/-- The mode decides only how lines are counted. -/
theorem map_blocks_embed_mode :
    (embed fs { options with mode } document source).blocks.map
        (fun b => (b.extension?, b.target?, b.outcome)) =
      (embed fs options document source).blocks.map
        fun b => (b.extension?, b.target?, b.outcome) := by
  rw [embed, embed, map_reportFrom, map_reportFrom]
  rfl

theorem changed_embed_mode : (embed fs { options with mode } document source).changed =
    (embed fs options document source).changed := by
  have h := congrArg (List.any · fun x => x.2.2.isReplaced)
    (map_blocks_embed_mode fs options document source mode)
  rw [List.any_map, List.any_map] at h
  exact h

end

end Document
end FenceSync
