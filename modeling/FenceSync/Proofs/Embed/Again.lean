import FenceSync.Proofs.Directive.Comment
import FenceSync.Proofs.Embed.Structure
/-!
# A second run

What a run does to a document that a run has made with the comment lines kept. Each block still has
its directive, so it is filled from the same lines again and is up to date. Hence the second run
changes nothing, provided that the document has the blocks and the line ending that it had.
-/
namespace FenceSync

def Outcome.settled : Outcome → Outcome
  | .unchanged reason => .unchanged reason
  | .replaced _ _ => .unchanged .upToDate

theorem Outcome.ofRendered_self (t : Text) (n : Nat) : ofRendered t t n = .unchanged .upToDate :=
  if_pos rfl

theorem Outcome.settled_ofRendered (rendered present : Text) (n : Nat) :
    (ofRendered rendered present n).settled = .unchanged .upToDate := by
  rw [ofRendered]
  split <;> rfl

theorem Outcome.isReplaced_settled (o : Outcome) : o.settled.isReplaced = false := by
  cases o <;> rfl

/-- The second report says what the first one said, but that the replaced blocks are up to date, and
the document is the same. -/
structure Report.SettledBy (first second : Report) : Prop where
  output : second.output = first.output
  changed : second.changed = false
  blocks : second.blocks.map (fun b => (b.extension?, b.target?, b.outcome)) =
    first.blocks.map fun b => (b.extension?, b.target?, b.outcome.settled)

/-- A report with settled outcomes only tells of no replaced block. -/
theorem Report.changed_eq_false_of_settled {first second : Report}
    (h : second.blocks.map (fun b => (b.extension?, b.target?, b.outcome)) =
      first.blocks.map fun b => (b.extension?, b.target?, b.outcome.settled)) :
    second.changed = false := by
  have ho := congrArg (fun l => l.any fun x => x.2.2.isReplaced) h
  simp only [List.any_map] at ho
  rw [changed]
  exact ho.trans (List.any_eq_false.2 fun b _ => by simp [Outcome.isReplaced_settled])

namespace Fence

variable {e : LineEnding} {f : Fence} {body : Text}

theorem written_written_none (comment? : Option Text) (body' : Text) :
    (f.written e comment? body).written e none body' = f.written e none body' := by
  rw [written, tag_written]
  rfl

/-- The comment line of a written block is written as it stands. -/
theorem written_written (hi : ∀ c ∈ f.indent, Text.isIndent c = true) (comment : Text) :
    (f.written e (some comment) body).written e (some (f.indent ++ Text.trim comment)) body =
      f.written e (some comment) body := by
  have htrim : Text.trim (f.indent ++ Text.trim comment) = Text.trim comment :=
    Text.trim_append_trim (fun c hc => Text.isBlank_of_isIndent (hi c hc)) comment
  rw [written, tag_written, written, commentLines, commentLines, htrim]

end Fence

/-- There is no reference on an empty line. -/
theorem Comment.reference?_nil (family : CommentFamily) : reference? family [] = none := by
  cases family <;> decide

theorem Directive.firstLineReference_written {e : LineEnding} {f : Fence} {reference line : Text}
    (hi : ∀ c ∈ f.indent, Text.isIndent c = true) (hf : Fence.Closed f.inside)
    (h : firstLineReference e f = .ok reference) (hl : f.firstLine? e = some line) (body : Text) :
    firstLineReference e (f.written e (some line) body) = .ok reference := by
  obtain ⟨extension, line', fileType, family, hx, hl', -, ht, hfam, hr⟩ :=
    firstLineReference_eq_ok_iff.1 h
  rw [hl, Option.some.injEq] at hl'
  subst hl'
  have hx' : (f.written e (some line) body).extension? = some extension := by
    rw [Fence.extension?, Fence.tag_written]
    exact hx
  have hline : (f.written e (some line) body).firstLine? e = some (f.indent ++ Text.trim line) :=
    Fence.firstLine?_written hi (Fence.firstLine?_unclosed hi hf hl).1
  have hr' := Comment.reference?_append_trim (fun c hc => Text.isBlank_of_isIndent (hi c hc)) hr
  have hne : f.indent ++ Text.trim line ≠ [] := by
    intro hnil
    rw [hnil, Comment.reference?_nil] at hr'
    cases hr'
  exact firstLineReference_eq_ok_iff.2
    ⟨extension, _, fileType, family, hx', hline, hne, ht, hfam, hr'⟩

namespace Document

section

variable {fs : FileSystem} {options : EmbedOptions} {document : Path} {e : LineEnding} {gap : Text}
  {f : Fence} {directive : Directive} {snippet : Snippet}

theorem comment?_of_override? (f : Fence) (h : directive.override? ≠ none) :
    comment? options e f directive = none := by
  rw [comment?, Option.isSome_iff_ne_none.2 h]
  rfl

theorem comment?_of_firstLine? (hkeep : options.stripComment = false) {line : Text}
    (ho : directive.override? = none) (hl : f.firstLine? e = some line) :
    comment? options e f directive = some line := by
  rw [comment?, hkeep, ho, hl]
  rfl

/-- A directive in front of a block holds for whatever stands in its place. -/
theorem Supplied.of_override? (h : Supplied fs options document e gap f directive snippet)
    (ho : directive.override? ≠ none) (f' : Fence) :
    Supplied fs options document e gap f' directive snippet := by
  refine ⟨?_, h.loaded⟩
  obtain ⟨hi, ⟨path, hp, hd⟩ | ⟨-, reference, -, hd⟩⟩ := Directive.ofFence_eq_ok_iff.1 h.found
  · exact Directive.ofFence_eq_ok_iff.2 ⟨hi, .inl ⟨path, hp, hd⟩⟩
  · obtain ⟨target, -, rfl⟩ := Directive.ofReference_eq_ok_iff.1 hd
    exact absurd rfl ho

/-- A block that was filled can be filled from the same place, and reads the same then. -/
theorem Supplied.again (hkeep : options.stripComment = false) (hf : f.StandsAfter gap)
    (h : Supplied fs options document e gap f directive snippet) {f' : Fence}
    (hf' : f' = f.written e (comment? options e f directive) snippet.body) :
    Supplied fs options document e gap f' directive snippet ∧
      f'.written e (comment? options e f' directive) snippet.body = f' := by
  cases ho : directive.override? with
  | some path =>
    have hne : directive.override? ≠ none := by
      rw [ho]
      exact Option.some_ne_none path
    rw [comment?_of_override? f hne] at hf'
    refine ⟨h.of_override? hne f', ?_⟩
    rw [comment?_of_override? f' hne, hf', Fence.written_written_none]
  | none =>
    have href := Directive.firstLineReference_of_override?_eq_none h.found ho
    obtain ⟨_, line, _, _, _, hl, -⟩ := Directive.firstLineReference_eq_ok_iff.1 href
    rw [comment?_of_firstLine? hkeep ho hl] at hf'
    have hs := (Fence.firstLine?_unclosed hf.indent hf.closed hl).1
    have hl' : f'.firstLine? e = some (f.indent ++ Text.trim line) := by
      rw [hf']
      exact Fence.firstLine?_written hf.indent hs
    refine ⟨⟨?_, h.loaded⟩, ?_⟩
    · obtain ⟨hi, ⟨path, hp, hd⟩ | ⟨hp, reference, hr, hd⟩⟩ := Directive.ofFence_eq_ok_iff.1 h.found
      · obtain ⟨target, -, rfl⟩ := Directive.ofReference_eq_ok_iff.1 hd
        cases ho
      · refine Directive.ofFence_eq_ok_iff.2 ⟨hi, .inr ⟨hp, reference, ?_, hd⟩⟩
        rw [hf']
        exact Directive.firstLineReference_written hf.indent hf.closed hr hl _
    · rw [comment?_of_firstLine? hkeep ho hl', hf', Fence.written_written hf.indent]

theorem result_fill_of_unchanged {target? : Option Text} {reason : SkipReason}
    (h : fill fs options document e gap f = ⟨gap, f, target?, .unchanged reason⟩) :
    (fill fs options document e gap f).result = f := by
  rw [h]
  exact Filled.result_eq rfl rfl

theorem result_fill_of_supplied (h : Supplied fs options document e gap f directive snippet) :
    (fill fs options document e gap f).result =
      f.written e (comment? options e f directive) snippet.body :=
  Filled.result_eq (text_fill_of_supplied h) (by rw [fence_fill]; rfl)

/-- The block that a filled block has become is up to date; one that was left alone is left alone
again, for the same reason. -/
theorem fill_result (hkeep : options.stripComment = false) (hf : f.StandsAfter gap) :
    fill fs options document e gap (fill fs options document e gap f).result =
      ⟨gap, (fill fs options document e gap f).result, (fill fs options document e gap f).target?,
        (fill fs options document e gap f).outcome.settled⟩ := by
  rcases fill_cases fs options document e gap f with ⟨target?, reason, h⟩ | ⟨d, snippet, h⟩
  · rw [result_fill_of_unchanged h, h]
    rfl
  · obtain ⟨h', hwritten⟩ := h.again hkeep hf (result_fill_of_supplied h)
    rw [fill_of_supplied h', hwritten, Outcome.ofRendered_self]
    rw [fill_of_supplied h, Outcome.settled_ofRendered]

/-- What a block has become is a block in its place, with the tag that it had. -/
theorem result_fill (hf : f.StandsAfter gap)
    (hc : ¬ ClosedByComment fs options document e gap f) :
    (fill fs options document e gap f).result.raw = (fill fs options document e gap f).text ∧
      (fill fs options document e gap f).result.StandsAfter gap ∧
      (fill fs options document e gap f).result.tag = f.tag := by
  obtain ⟨f', htext, hf', hi, htag⟩ := exists_text_fill_eq_raw hf hc
  have h : (fill fs options document e gap f).result = f' :=
    Filled.result_eq htext (by rw [fence_fill, hi])
  rw [h]
  exact ⟨htext.symm, hf', htag⟩

end

variable (fs : FileSystem) (options : EmbedOptions) (document : Path) (e : LineEnding)

/-- The new text falls apart into what the blocks have become, unless a comment line closes its
block. -/
theorem ofText_assemble {bs : List (Text × Fence)} {tail : Text}
    (hb : ∀ x ∈ bs, x.2.StandsAfter x.1) (ht : Fence.next? tail = none)
    (hc : ∀ x ∈ bs, ¬ ClosedByComment fs options document e x.1 x.2) :
    Layout.ofText (assemble (fillAll fs options document e ⟨bs, tail⟩) tail) =
      ⟨bs.map fun x => (x.1, (fill fs options document e x.1 x.2).result), tail⟩ := by
  have htext : assemble (fillAll fs options document e ⟨bs, tail⟩) tail =
      Layout.text ⟨bs.map fun x => (x.1, (fill fs options document e x.1 x.2).result), tail⟩ := by
    rw [assemble, Layout.text, fillAll, List.flatMap_map, List.flatMap_map]
    congr 1
    refine List.flatMap_congr fun x hx => ?_
    simp only
    rw [gap_fill, (result_fill (hb x hx) (hc x hx)).1]
  rw [htext]
  refine Layout.ofText_text (fun y hy => ?_) ht
  obtain ⟨x, hx, rfl⟩ := List.mem_map.1 hy
  exact (result_fill (hb x hx) (hc x hx)).2.1

theorem output_embed_of_not_changed {source : Text}
    (h : (embed fs options document source).changed = false) :
    (embed fs options document source).output = source := by
  rw [output_embed_eq_iff]
  intro x hx
  by_contra hne
  rw [(changed_embed_iff_exists fs options document).2 ⟨x, hx, hne⟩] at h
  cases h

theorem map_blocks_embed (source : Text) :
    (embed fs options document source).blocks.map
        (fun b => (b.extension?, b.target?, b.outcome)) =
      (fillAll fs options document (LineEnding.detect source) (Layout.ofText source)).map
        fun b => (b.fence.extension?, b.target?, b.outcome) :=
  map_reportFrom _ _ _ _ _

/-- A second run settles the first one if the first one keeps the blocks and the line ending. -/
theorem settledBy_embed_embed {source : Text} (hkeep : options.stripComment = false)
    (hc : ∀ x ∈ (Layout.ofText source).blocks,
      ¬ ClosedByComment fs options document (LineEnding.detect source) x.1 x.2)
    (he : LineEnding.detect (embed fs options document source).output =
      LineEnding.detect source) :
    (embed fs options document source).SettledBy
      (embed fs options document (embed fs options document source).output) := by
  have hb := Layout.standsAfter_of_mem_blocks source
  have hl : Layout.ofText (embed fs options document source).output = _ :=
    ofText_assemble fs options document _ hb (Layout.next?_tail source) hc
  have hblocks : (embed fs options document (embed fs options document source).output).blocks.map
        (fun b => (b.extension?, b.target?, b.outcome)) =
      (embed fs options document source).blocks.map
        fun b => (b.extension?, b.target?, b.outcome.settled) := by
    have hfirst := congrArg (List.map fun x => (x.1, x.2.1, x.2.2.settled))
      (map_blocks_embed fs options document source)
    rw [List.map_map, fillAll, List.map_map, List.map_map] at hfirst
    rw [map_blocks_embed, he, hl, fillAll, List.map_map, List.map_map]
    refine Eq.trans (List.map_congr_left fun x hx => ?_) hfirst.symm
    have htag := (result_fill (hb x hx) (hc x hx)).2.2
    simp only [Function.comp_apply, fill_result hkeep (hb x hx), fence_fill, Fence.extension?, htag]
  have hchanged := Report.changed_eq_false_of_settled hblocks
  exact ⟨output_embed_of_not_changed fs options document hchanged, hchanged, hblocks⟩

end Document
end FenceSync
