import FenceSync.Proofs.Embed.Filled
/-!
# The blocks of the new document

The new document has the blocks of the old one, with the texts that they were given, exactly when no
block is closed by its comment line. In any case a block that is replaced shows: the new document is
the old one only if every block stays as it is.
-/
namespace FenceSync

/-- The blocks of the new document are those of the old one, each with the text that it ended with,
and with the indentation and the tag that it had. -/
def KeepsFences (source : Text) (r : Report) : Prop :=
  (Layout.ofText r.output).fences.length = (Layout.ofText source).fences.length ∧
    (Layout.ofText r.output).fences.map (fun f => (f.raw, f.indent, f.tag)) =
      List.zipWith (fun f b => (b.outcome.text f.raw, f.indent, f.tag))
        (Layout.ofText source).fences r.blocks

instance (source : Text) (r : Report) : Decidable (KeepsFences source r) :=
  inferInstanceAs (Decidable (_ ∧ _))

namespace Document

variable (fs : FileSystem) (options : EmbedOptions) (document : Path) (e : LineEnding)

theorem fences_assemble_iff {bs : List (Text × Fence)} {tail : Text}
    (hb : ∀ x ∈ bs, x.2.StandsAfter x.1) (ht : Fence.next? tail = none) :
    (Layout.ofText (assemble (fillAll fs options document e ⟨bs, tail⟩) tail)).fences.map
        (fun f => (f.raw, f.indent, f.tag)) =
      bs.map (fun x => ((fill fs options document e x.1 x.2).text, x.2.indent, x.2.tag)) ↔
    ∀ x ∈ bs, ¬ ClosedByComment fs options document e x.1 x.2 := by
  induction bs with
  | nil =>
    have h : assemble (fillAll fs options document e ⟨[], tail⟩) tail = tail := by
      simp [assemble, fillAll]
    rw [h, Layout.ofText_of_next?_eq_none ht]
    simp [Layout.fences]
  | cons x bs ih =>
    obtain ⟨g, f⟩ := x
    have hf : f.StandsAfter g := hb (g, f) List.mem_cons_self
    have hfill : fillAll fs options document e ⟨(g, f) :: bs, tail⟩ =
        fill fs options document e g f :: fillAll fs options document e ⟨bs, tail⟩ := rfl
    rw [hfill, assemble_cons, gap_fill, List.forall_mem_cons,
      ← ih fun x hx => hb x (List.mem_cons_of_mem _ hx)]
    by_cases hc : ClosedByComment fs options document e g f
    · obtain ⟨w, hw, htext⟩ := hc.exists_text_fill_eq hf
      have hcut : (f.cutShort e).StandsAfter g :=
        hf.exchange rfl (Fence.closed_cutShort hf.indent)
      have hne : (f.cutShort e).raw ≠ (f.cutShort e).raw ++ w :=
        fun h => hw (List.append_cancel_left ((List.append_nil _).trans h)).symm
      rw [List.map_cons, htext, ← List.append_assoc, List.append_assoc _ w,
        Layout.fences_ofText_append hcut, List.map_cons]
      simp [hne, hc]
    · obtain ⟨f', htext, hf', hi, htag⟩ := exists_text_fill_eq_raw hf hc
      rw [List.map_cons, htext, Layout.fences_ofText_append hf', List.map_cons, hi, htag]
      simp [hc]

theorem map_outcome_embed (source : Text) :
    (embed fs options document source).blocks.map (·.outcome) =
      (Layout.ofText source).blocks.map fun x =>
        (fill fs options document (LineEnding.detect source) x.1 x.2).outcome := by
  have h := map_outcome_reportFrom (LineEnding.detect source) options.mode [] []
    (fillAll fs options document (LineEnding.detect source) (Layout.ofText source))
  rw [fillAll, List.map_map] at h
  exact h

theorem changed_embed_iff_exists {source : Text} :
    (embed fs options document source).changed = true ↔ ∃ x ∈ (Layout.ofText source).blocks,
      (fill fs options document (LineEnding.detect source) x.1 x.2).text ≠ x.2.raw := by
  have h : (embed fs options document source).changed =
      ((embed fs options document source).blocks.map (·.outcome)).any Outcome.isReplaced := by
    rw [List.any_map]
    rfl
  rw [h, map_outcome_embed, List.any_map, List.any_eq_true]
  exact exists_congr fun x => and_congr_right fun _ => isReplaced_fill_iff

theorem zipWith_fences_blocks_embed (source : Text) :
    List.zipWith (fun f b => (b.outcome.text f.raw, f.indent, f.tag)) (Layout.ofText source).fences
        (embed fs options document source).blocks =
      (Layout.ofText source).blocks.map fun x =>
        ((fill fs options document (LineEnding.detect source) x.1 x.2).text, x.2.indent, x.2.tag) := by
  have h : List.zipWith (fun f b => (b.outcome.text f.raw, f.indent, f.tag))
        (Layout.ofText source).fences (embed fs options document source).blocks =
      List.zipWith (fun f o => (Outcome.text f.raw o, f.indent, f.tag))
        (Layout.ofText source).fences
        ((embed fs options document source).blocks.map (·.outcome)) := by
    rw [List.zipWith_map_right]
  rw [h, map_outcome_embed, Layout.fences, List.zipWith_map, List.zipWith_self]
  simp only [Filled.text_eq, fence_fill]

end Document

/-- Embedding keeps the blocks of a document, unless a comment line begins with a delimiter once the
blanks in front of it are off. -/
theorem keepsFences_embed_iff (fs : FileSystem) (options : EmbedOptions) (document : Path)
    (source : Text) :
    KeepsFences source (Document.embed fs options document source) ↔
      ∀ x ∈ (Layout.ofText source).blocks, ¬ Document.ClosedByComment fs options document
        (LineEnding.detect source) x.1 x.2 := by
  have h := Document.fences_assemble_iff fs options document (LineEnding.detect source)
    (Layout.standsAfter_of_mem_blocks source) (Layout.next?_tail source)
  rw [KeepsFences, Document.zipWith_fences_blocks_embed, ← h]
  constructor
  · exact fun h => h.2
  · intro h
    refine ⟨?_, h⟩
    have hl := congrArg List.length h
    rw [List.length_map, List.length_map] at hl
    exact hl.trans (List.length_map _).symm

/-- A no-break space in front of a delimiter keeps it from closing the block, but not from becoming
the beginning of the comment line. -/
theorem not_keepsFences_embed : ¬ ∀ (fs : FileSystem) (options : EmbedOptions) (document : Path)
    (source : Text), KeepsFences source (Document.embed fs options document source) := by
  intro h
  have h' := h ⟨[(["a".toList], .file (Text.bytes "x\n".toList))], []⟩ ⟨none, false, .write, ⟨[]⟩⟩
    ⟨"D.md".toList⟩ "```js\n\u00a0```//a\n```".toList
  revert h'
  decide +kernel

namespace Document

variable (fs : FileSystem) (options : EmbedOptions) (document : Path) (e : LineEnding)

/-- A block that ends up with another text is told from the old one by what follows it. -/
theorem text_fill_eq_raw_of_append_eq {gap : Text} {f : Fence} {s s' : Text}
    (hf : f.StandsAfter gap) (h : (fill fs options document e gap f).text ++ s' = f.raw ++ s) :
    (fill fs options document e gap f).text = f.raw := by
  by_cases hc : ClosedByComment fs options document e gap f
  · obtain ⟨w, -, htext⟩ := hc.exists_text_fill_eq hf
    rw [htext, List.append_assoc] at h
    have heq := Fence.raw_eq_of_append_eq hf.closed (Fence.closed_cutShort hf.indent) rfl h
    have hnone := Fence.firstLine?_cutShort (e := e) hf.indent
    rw [heq.1] at hnone
    exact absurd hnone hc.firstLine?_ne_none
  · obtain ⟨f', htext, hf', hi, -⟩ := exists_text_fill_eq_raw hf hc
    rw [htext] at h ⊢
    rw [(Fence.raw_eq_of_append_eq hf.closed hf'.closed hi h).1]

theorem assemble_fillAll_eq_iff {bs : List (Text × Fence)} {t : Text}
    (hb : ∀ x ∈ bs, x.2.StandsAfter x.1) :
    assemble (fillAll fs options document e ⟨bs, t⟩) t = Layout.text ⟨bs, t⟩ ↔
      ∀ x ∈ bs, (fill fs options document e x.1 x.2).text = x.2.raw := by
  induction bs with
  | nil => simp [assemble, fillAll, Layout.text]
  | cons x bs ih =>
    obtain ⟨g, f⟩ := x
    have hf : f.StandsAfter g := hb (g, f) List.mem_cons_self
    have hfill : fillAll fs options document e ⟨(g, f) :: bs, t⟩ =
        fill fs options document e g f :: fillAll fs options document e ⟨bs, t⟩ := rfl
    rw [hfill, assemble_cons, gap_fill, Layout.text_cons, List.forall_mem_cons,
      ← ih fun x hx => hb x (List.mem_cons_of_mem _ hx), List.append_assoc, List.append_assoc,
      List.append_right_inj]
    constructor
    · intro h
      have htext := text_fill_eq_raw_of_append_eq fs options document e hf h
      rw [htext] at h
      exact ⟨htext, List.append_cancel_left h⟩
    · rintro ⟨htext, h⟩
      rw [htext, h]

theorem output_embed_eq_iff (source : Text) :
    (embed fs options document source).output = source ↔ ∀ x ∈ (Layout.ofText source).blocks,
      (fill fs options document (LineEnding.detect source) x.1 x.2).text = x.2.raw := by
  have h := assemble_fillAll_eq_iff fs options document (LineEnding.detect source)
    (t := (Layout.ofText source).tail) (Layout.standsAfter_of_mem_blocks source)
  have htext : Layout.text ⟨(Layout.ofText source).blocks, (Layout.ofText source).tail⟩ = source :=
    Layout.text_ofText source
  rw [htext] at h
  exact h

end Document

/-- A report tells of a replaced block exactly when the new document differs from the old one. -/
theorem changed_embed_iff (fs : FileSystem) (options : EmbedOptions) (document : Path)
    (source : Text) :
    (Document.embed fs options document source).changed = true ↔
      (Document.embed fs options document source).output ≠ source := by
  rw [Document.changed_embed_iff_exists, ne_eq, Document.output_embed_eq_iff]
  simp only [not_forall, exists_prop, ne_eq]

end FenceSync
