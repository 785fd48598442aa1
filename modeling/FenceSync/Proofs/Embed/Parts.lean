import FenceSync.Proofs.Embed.Lines
/-!
# Documents in parts

A document that is cut behind one of its blocks is embedded part by part: the layout of the whole is
that of the parts, each block is filled from its own gap, and all that the second part has from the
first is the number of lines in front of it.
-/
namespace FenceSync

namespace Text

/-- Texts with the same number of bytes are cut off at the same place. -/
theorem append_inj_of_byteSize {a b c d : Text} (h : a ++ b = c ++ d)
    (hs : a.byteSize = c.byteSize) : a = c ∧ b = d := by
  induction a generalizing c with
  | nil =>
    rcases c with - | ⟨x, c⟩
    · exact ⟨rfl, h⟩
    · have := byteSize_pos (List.cons_ne_nil x c)
      rw [← hs] at this
      exact absurd this (Nat.lt_irrefl 0)
  | cons x a ih =>
    rcases c with - | ⟨y, c⟩
    · have := byteSize_pos (List.cons_ne_nil x a)
      rw [hs] at this
      exact absurd this (Nat.lt_irrefl 0)
    · obtain ⟨rfl, h'⟩ := List.cons.inj h
      obtain ⟨rfl, rfl⟩ := ih h' (Nat.add_left_cancel hs)
      exact ⟨rfl, rfl⟩

/-- A weave of bounded texts without a tail ends in no carriage return. -/
theorem getLast?_weave_ne {before : Text} {gaps ts : List Text}
    (hbefore : ∀ c ∈ before.getLast?, c ≠ '\r') (hts : ∀ t ∈ ts, Bounded t) :
    ∀ c ∈ (before ++ weave [] gaps ts).getLast?, c ≠ '\r' := by
  induction gaps generalizing before ts with
  | nil =>
    rw [weave, List.append_nil]
    · exact hbefore
    · simp
  | cons gap gaps ih =>
    rcases ts with - | ⟨t, ts⟩
    · simpa [weave] using hbefore
    · rw [List.forall_mem_cons] at hts
      have h := ih (hts.1.getLast?_append_ne (before ++ gap)) hts.2
      rw [weave]
      simpa only [List.append_assoc] using h

end Text

namespace Layout

theorem text_append (bs₁ bs₂ : List (Text × Fence)) (tail : Text) :
    text ⟨bs₁ ++ bs₂, tail⟩ = text ⟨bs₁, []⟩ ++ text ⟨bs₂, tail⟩ := by
  simp [text]

theorem exists_of_mem_placedFrom {start : Nat} {bs : List (Text × Fence)} :
    ∀ x ∈ placedFrom start bs, ∃ bs₁ bs₂, bs = bs₁ ++ bs₂ ∧
      x.1 + x.2.raw.byteSize = start + (text ⟨bs₁, []⟩).byteSize := by
  induction bs generalizing start with
  | nil => simp [placedFrom]
  | cons y bs ih =>
    obtain ⟨gap, f⟩ := y
    intro x hx
    rcases List.mem_cons.1 hx with rfl | hx
    · refine ⟨[(gap, f)], bs, rfl, ?_⟩
      rw [text_cons, Text.byteSize_append, Text.byteSize_append]
      simp [text, Text.byteSize]
      omega
    · obtain ⟨bs₁, bs₂, rfl, hsize⟩ := ih x hx
      refine ⟨(gap, f) :: bs₁, bs₂, rfl, ?_⟩
      rw [hsize, text_cons, Text.byteSize_append, Text.byteSize_append]
      omega

/-- A text that is cut at the end of a block has the blocks of its parts. -/
theorem ofText_append_of_end {s t : Text}
    (h : ∃ x ∈ Scanner.fences (s ++ t), x.1 + x.2.raw.byteSize = s.byteSize) :
    (ofText s).tail = [] ∧
      ofText (s ++ t) = ⟨(ofText s).blocks ++ (ofText t).blocks, (ofText t).tail⟩ := by
  obtain ⟨x, hx, hend⟩ := h
  rw [Scanner.fences_eq_placedFrom] at hx
  obtain ⟨bs₁, bs₂, hbs, hsize⟩ := exists_of_mem_placedFrom x hx
  have hstands := standsAfter_of_mem_blocks (s ++ t)
  rw [hbs] at hstands
  have htext : s ++ t = text ⟨bs₁, []⟩ ++ text ⟨bs₂, (ofText (s ++ t)).tail⟩ := by
    rw [← text_append, ← hbs]
    exact (text_ofText (s ++ t)).symm
  obtain ⟨hs, ht⟩ := Text.append_inj_of_byteSize htext (by omega)
  have hofs : ofText s = ⟨bs₁, []⟩ := by
    rw [hs]
    exact ofText_text (fun y hy => hstands y (List.mem_append_left _ hy)) rfl
  have hoft : ofText t = ⟨bs₂, (ofText (s ++ t)).tail⟩ := by
    rw [ht, ofText_text (fun y hy => hstands y (List.mem_append_right _ hy)) (next?_tail (s ++ t)),
      ← ht]
  rw [hofs, hoft]
  refine ⟨rfl, ?_⟩
  rw [← hbs]

end Layout

def Block.shift (n : Nat) (b : Block) : Block :=
  { b with startLine := b.startLine + n, endLine := b.endLine + n }

namespace Document

theorem assemble_append (bs₁ bs₂ : List Filled) (tail : Text) :
    assemble (bs₁ ++ bs₂) tail = assemble bs₁ [] ++ assemble bs₂ tail := by
  simp [assemble]

section

variable {e : LineEnding}

theorem reportFrom_append (mode : RunMode) (before written : Text) (bs₁ bs₂ : List Filled) :
    reportFrom e mode before written (bs₁ ++ bs₂) =
      reportFrom e mode before written bs₁ ++
        reportFrom e mode (before ++ bs₁.flatMap fun b => b.gap ++ b.fence.raw)
          (written ++ assemble bs₁ []) bs₂ := by
  induction bs₁ generalizing before written with
  | nil => simp [reportFrom, assemble]
  | cons b bs₁ ih =>
    rw [List.cons_append, reportFrom, reportFrom, ih, assemble_cons, List.flatMap_cons]
    simp only [List.cons_append, List.append_assoc]

/-- Lines in front of the documents move every block. -/
theorem reportFrom_shift (mode : RunMode) {s t : Text} (hs : ∀ c ∈ s.getLast?, c ≠ '\r')
    (ht : ∀ c ∈ t.getLast?, c ≠ '\r') (before written : Text) (bs : List Filled) :
    reportFrom e mode (s ++ before) (t ++ written) bs =
      (reportFrom e mode before written bs).map
        (Block.shift (Text.occurrences e.text (if mode.isReadOnly then s else t))) := by
  induction bs generalizing before written with
  | nil => rfl
  | cons b bs ih =>
    have hbefore := LineEnding.occurrences_append e
      (Text.Apart.of_getLast? (t := before ++ b.gap) hs)
    have hwritten := LineEnding.occurrences_append e (Text.Apart.of_getLast? (t := written) ht)
    have hrest := ih (before ++ b.gap ++ b.fence.raw) (written ++ b.gap ++ b.text)
    have hcount := LineEnding.lineCount_eq_occurrences e b.text
    simp only [← List.append_assoc] at hbefore hrest
    rw [reportFrom, reportFrom, hrest, List.map_cons, Block.shift]
    cases mode.isReadOnly with
    | false =>
      simp only [Bool.false_eq_true, if_false, LineEnding.breaks_eq_occurrences, hwritten,
        List.cons.injEq, Block.mk.injEq, and_true]
      omega
    | true =>
      simp only [if_true, LineEnding.lineCount_eq_occurrences, hbefore, List.cons.injEq,
        Block.mk.injEq, and_true]
      omega

end

variable (fs : FileSystem) (options : EmbedOptions) (document : Path) (e : LineEnding)

theorem fillAll_append (bs₁ bs₂ : List (Text × Fence)) (tail : Text) :
    fillAll fs options document e ⟨bs₁ ++ bs₂, tail⟩ =
      fillAll fs options document e ⟨bs₁, []⟩ ++ fillAll fs options document e ⟨bs₂, tail⟩ :=
  List.map_append

theorem flatMap_raw_fillAll (l : Layout) :
    (fillAll fs options document e l).flatMap (fun b => b.gap ++ b.fence.raw) =
      Layout.text ⟨l.blocks, []⟩ := by
  simp [fillAll, Layout.text, List.flatMap_map, gap_fill, fence_fill]

section

variable {bs : List (Text × Fence)} (hb : ∀ x ∈ bs, x.2.StandsAfter x.1)

include hb

theorem getLast?_text_ne : ∀ c ∈ (Layout.text ⟨bs, []⟩).getLast?, c ≠ '\r' := by
  have hnil : ∀ c ∈ ([] : Text).getLast?, c ≠ '\r' := nofun
  rw [Layout.text_eq_weave]
  refine Text.getLast?_weave_ne hnil (List.forall_mem_map.2 fun x hx => ?_)
  exact (hb x hx).bounded_raw

theorem getLast?_assemble_ne :
    ∀ c ∈ (assemble (fillAll fs options document e ⟨bs, []⟩) []).getLast?, c ≠ '\r' := by
  have hnil : ∀ c ∈ ([] : Text).getLast?, c ≠ '\r' := nofun
  rw [assemble_fillAll_eq_weave, ← map_text_fillAll fs options document e ⟨bs, []⟩, fillAll,
    List.map_map]
  refine Text.getLast?_weave_ne hnil (List.forall_mem_map.2 fun x hx => ?_)
  exact bounded_text_fill fs options document e (hb x hx)

end

end Document

/-- A document that is cut behind a block, and whose parts have its line ending, is embedded part by
part. The blocks of the second part are further down by the lines of the first, in its new form if
that is to be written. -/
theorem embed_append (fs : FileSystem) (options : EmbedOptions) (document : Path) {s t : Text}
    (hend : ∃ x ∈ Scanner.fences (s ++ t), x.1 + x.2.raw.byteSize = s.byteSize)
    (hs : LineEnding.detect s = LineEnding.detect (s ++ t))
    (ht : LineEnding.detect t = LineEnding.detect (s ++ t)) :
    let whole := Document.embed fs options document (s ++ t)
    let first := Document.embed fs options document s
    let second := Document.embed fs options document t
    let counted := if options.mode.isReadOnly then s else first.output
    let lines := Text.occurrences (LineEnding.detect (s ++ t)).text counted
    whole.output = first.output ++ second.output ∧
      whole.blocks = first.blocks ++ second.blocks.map (Block.shift lines) := by
  intro whole first second counted lines
  obtain ⟨htail, hlayout⟩ := Layout.ofText_append_of_end hend
  let e := LineEnding.detect (s ++ t)
  let bs₁ := Document.fillAll fs options document e (Layout.ofText s)
  let bs₂ := Document.fillAll fs options document e (Layout.ofText t)
  have hfirst : first = ⟨Document.assemble bs₁ [], Document.reportFrom e options.mode [] [] bs₁⟩ := by
    simp only [first, Document.embed, hs, htail, bs₁, e]
  have hsecond : second = ⟨Document.assemble bs₂ (Layout.ofText t).tail,
      Document.reportFrom e options.mode [] [] bs₂⟩ := by
    simp only [second, Document.embed, ht, bs₂, e]
  have hwhole : whole = ⟨Document.assemble (bs₁ ++ bs₂) (Layout.ofText t).tail,
      Document.reportFrom e options.mode [] [] (bs₁ ++ bs₂)⟩ := by
    simp only [whole, Document.embed, hlayout, Document.fillAll_append]
    rfl
  have htext : Layout.text ⟨(Layout.ofText s).blocks, []⟩ = s := by
    rw [← htail]
    exact Layout.text_ofText s
  have hstands := Layout.standsAfter_of_mem_blocks s
  have hold := Document.getLast?_text_ne hstands
  have hnew := Document.getLast?_assemble_ne fs options document e hstands
  have hshift := Document.reportFrom_shift (e := e) options.mode hold hnew [] [] bs₂
  rw [hwhole, hfirst, hsecond]
  refine ⟨Document.assemble_append bs₁ bs₂ _, ?_⟩
  rw [htext, List.append_nil, List.append_nil] at hshift
  rw [Document.reportFrom_append, Document.flatMap_raw_fillAll, htext, List.nil_append,
    List.nil_append]
  refine congrArg _ (hshift.trans ?_)
  simp only [lines, counted, hfirst]
  rfl

/-- The first block is filled and grows by three lines, the second one is ignored; the comment that
says so stands directly behind the first block. -/
theorem embed_append_sample :
    let fs : FileSystem := ⟨[(["a".toList], .file (Text.bytes "x\ny\n".toList))], []⟩
    let options : EmbedOptions := ⟨none, false, .write, ⟨[]⟩⟩
    let document : Path := ⟨"D.md".toList⟩
    let s : Text := "```js\n// a\n```".toList
    let t : Text := "<!-- embed-directive ignore-next -->\n```js\n// a\n```\n".toList
    (∃ x ∈ Scanner.fences (s ++ t), x.1 + x.2.raw.byteSize = s.byteSize) ∧
      LineEnding.detect s = LineEnding.detect (s ++ t) ∧
      LineEnding.detect t = LineEnding.detect (s ++ t) ∧
      (Document.embed fs options document (s ++ t)).blocks.map (·.startLine) = [1, 7] ∧
      (Document.embed fs options document (s ++ t)).output =
        (Document.embed fs options document s).output ++
          (Document.embed fs options document t).output ∧
      (Document.embed fs options document (s ++ t)).blocks =
        (Document.embed fs options document s).blocks ++
          (Document.embed fs options document t).blocks.map (Block.shift
            (Text.occurrences (LineEnding.detect (s ++ t)).text
              (Document.embed fs options document s).output)) := by
  intro fs options document s t
  have hend : ∃ x ∈ Scanner.fences (s ++ t), x.1 + x.2.raw.byteSize = s.byteSize := by
    decide +kernel
  have hs : LineEnding.detect s = LineEnding.detect (s ++ t) := by decide +kernel
  have ht : LineEnding.detect t = LineEnding.detect (s ++ t) := by decide +kernel
  exact ⟨hend, hs, ht, by decide +kernel, embed_append fs options document hend hs ht⟩

end FenceSync
