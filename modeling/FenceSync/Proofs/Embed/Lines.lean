import FenceSync.Proofs.Document.Counting
import FenceSync.Proofs.Embed.Frame
import Mathlib.Tactic.Ring
/-!
# Lines of blocks

The lines that a report gives are those at which the blocks stand: in the new document if it is to be
written, otherwise in the old one. Line endings add up over gaps and blocks because a block begins
with no line feed and ends in a backtick, so no line ending reaches over its borders.
-/
namespace FenceSync

namespace Text

/-- What stands in front of each text when gaps and texts are written in turn behind `before`. -/
def headsFrom (before : Text) : List Text → List Text → List Text
  | gap :: gaps, t :: ts => (before ++ gap) :: headsFrom (before ++ gap ++ t) gaps ts
  | _, _ => []

def heads (gaps ts : List Text) : List Text := headsFrom [] gaps ts

/-- Each text stands in the weave behind its head. -/
theorem forall₂_headsFrom (before tail : Text) {gaps ts : List Text}
    (h : gaps.length = ts.length) :
    List.Forall₂ (fun head t => head ++ t <+: before ++ weave tail gaps ts)
      (headsFrom before gaps ts) ts := by
  induction gaps generalizing before ts with
  | nil =>
    rw [List.eq_nil_of_length_eq_zero h.symm]
    exact .nil
  | cons gap gaps ih =>
    obtain ⟨t, ts, rfl⟩ := List.exists_cons_of_length_eq_add_one h.symm
    have hrest := ih (before ++ gap ++ t) (Nat.succ.inj h)
    have hweave : before ++ weave tail (gap :: gaps) (t :: ts) =
        before ++ gap ++ t ++ weave tail gaps ts := by
      rw [weave]
      simp only [List.append_assoc]
    rw [hweave]
    exact .cons (List.prefix_append _ _) hrest

/-- A text that is a block by its ends: it begins with no line feed and ends in a backtick. -/
structure Bounded (t : Text) : Prop where
  head?_ne : ∀ c ∈ t.head?, c ≠ '\n'
  getLast?_eq : t.getLast? = some '\x60'

theorem Bounded.apart_left {t : Text} (h : t.Bounded) (s : Text) : Apart s t :=
  .of_head? h.head?_ne

theorem Bounded.getLast?_append_ne {t : Text} (h : t.Bounded) (s : Text) :
    ∀ c ∈ (s ++ t).getLast?, c ≠ '\r' := by
  intro c hc
  rw [List.getLast?_append, h.getLast?_eq] at hc
  cases hc
  decide

theorem bounded_append {s t : Text} (hs : ∀ c ∈ (s ++ delimiter).head?, c ≠ '\n')
    (ht : delimiter <:+ t) : Bounded (s ++ delimiter ++ t) := by
  refine ⟨?_, ?_⟩
  · rwa [List.head?_append_of_ne_nil _ (by simp [delimiter])]
  · obtain ⟨u, rfl⟩ := ht
    rw [← List.append_assoc, List.getLast?_append]
    rfl

end Text

namespace Fence

theorem delimiter_suffix_of_closing? {t i r : Text} (h : closing? t = some (i, r)) :
    delimiter <:+ i := by
  induction t generalizing i with
  | nil => simp [closing?] at h
  | cons c t ih =>
    rcases closing?_cons_cases h with ⟨rfl, d, hd, rfl⟩ | ⟨-, i', h', rfl⟩
    · obtain ⟨j, -, rfl, -⟩ := delimiterLine?_eq_some_iff.1 hd
      exact List.suffix_append ('\n' :: j) delimiter
    · exact (ih h').trans (List.suffix_cons c i')

theorem bounded_raw {f : Fence} (hi : ∀ c ∈ f.indent, Text.isIndent c = true)
    (hd : delimiter <:+ f.inside) : f.raw.Bounded := by
  refine Text.bounded_append ?_ hd
  intro c hc
  have hinline := (inline_of_forall_isIndent hi).append inline_delimiter
  exact (hinline c (List.mem_of_mem_head? hc)).2

theorem StandsAfter.bounded_raw {f : Fence} {gap : Text} (h : f.StandsAfter gap) : f.raw.Bounded :=
  Fence.bounded_raw h.indent (delimiter_suffix_of_closing? h.closed)

theorem delimiter_suffix_written (e : LineEnding) (f : Fence) (comment? : Option Text)
    (body : Text) : delimiter <:+ (f.written e comment? body).inside :=
  (List.suffix_append f.indent delimiter).trans (List.suffix_append _ _)

end Fence

namespace Document

variable (fs : FileSystem) (options : EmbedOptions) (document : Path) (e : LineEnding)

/-- Whatever becomes of a block, its text is bounded. -/
theorem bounded_text_fill {gap : Text} {f : Fence} (hf : f.StandsAfter gap) :
    (fill fs options document e gap f).text.Bounded := by
  rcases fill_cases fs options document e gap f with ⟨_, _, h⟩ | ⟨_, _, h⟩
  · rw [h]
    exact hf.bounded_raw
  · rw [text_fill_of_supplied h]
    exact Fence.bounded_raw hf.indent (Fence.delimiter_suffix_written e f _ _)

variable {e}

/-- In write mode the lines of a block are counted in what is written up to it. -/
theorem reportFrom_write_cons {before written : Text} {b : Filled} (bs : List Filled)
    (hw : ∀ c ∈ written.getLast?, c ≠ '\r') (hb : b.text.Bounded) :
    reportFrom e .write before written (b :: bs) =
      ⟨1 + Text.occurrences e.text (written ++ b.gap),
        1 + Text.occurrences e.text (written ++ b.gap ++ b.text), b.fence.extension?, b.target?,
        b.outcome⟩ :: reportFrom e .write (before ++ b.gap ++ b.fence.raw)
          (written ++ b.gap ++ b.text) bs := by
  have hstart : e.breaks written + e.lineCount b.gap =
      1 + Text.occurrences e.text (written ++ b.gap) := by
    rw [LineEnding.occurrences_append e (.of_getLast? hw), LineEnding.breaks_eq_occurrences,
      LineEnding.lineCount_eq_occurrences]
    omega
  have hend : 1 + Text.occurrences e.text (written ++ b.gap) + e.lineCount b.text - 1 =
      1 + Text.occurrences e.text (written ++ b.gap ++ b.text) := by
    rw [LineEnding.occurrences_append e (hb.apart_left (written ++ b.gap)),
      LineEnding.lineCount_eq_occurrences]
    omega
  simp only [reportFrom, RunMode.isReadOnly, Bool.false_eq_true, if_false, hstart, hend]

section

variable (before : Text) {written : Text} {bs : List Filled}
  (hw : ∀ c ∈ written.getLast?, c ≠ '\r') (hb : ∀ b ∈ bs, b.text.Bounded)

include hw hb

theorem lines_reportFrom_write :
    (reportFrom e .write before written bs).map (fun b => (b.startLine, b.endLine)) =
      List.zipWith (fun head t =>
          (1 + Text.occurrences e.text head, 1 + Text.occurrences e.text (head ++ t)))
        (Text.headsFrom written (bs.map (·.gap)) (bs.map (·.text))) (bs.map (·.text)) := by
  induction bs generalizing before written with
  | nil => rfl
  | cons b bs ih =>
    rw [List.forall_mem_cons] at hb
    rw [reportFrom_write_cons bs hw hb.1, List.map_cons,
      ih _ (hb.1.getLast?_append_ne (written ++ b.gap)) hb.2]
    rfl

/-- In write mode a block begins where the one before it ends, or behind that. -/
theorem pairwise_lines_reportFrom_write :
    let lines := (reportFrom e .write before written bs).flatMap fun b => [b.startLine, b.endLine]
    (∀ n ∈ lines, 1 + Text.occurrences e.text written ≤ n) ∧ lines.Pairwise (· ≤ ·) := by
  induction bs generalizing before written with
  | nil => exact ⟨nofun, .nil⟩
  | cons b bs ih =>
    rw [List.forall_mem_cons] at hb
    obtain ⟨hle, hpairwise⟩ := ih (before ++ b.gap ++ b.fence.raw)
      (hb.1.getLast?_append_ne (written ++ b.gap)) hb.2
    have hgap := LineEnding.occurrences_append e (Text.Apart.of_getLast? (t := b.gap) hw)
    have htext := LineEnding.occurrences_append e (hb.1.apart_left (written ++ b.gap))
    simp only [reportFrom_write_cons bs hw hb.1, List.flatMap_cons, List.cons_append,
      List.nil_append, List.forall_mem_cons, List.pairwise_cons]
    refine ⟨⟨by omega, by omega, fun n hn => ?_⟩, ⟨by omega, fun n hn => ?_⟩, hle, hpairwise⟩
    · have := hle n hn
      omega
    · have := hle n hn
      omega

end

/-- In the other modes a block begins where it stands in the old document. -/
theorem startLine_reportFrom_readOnly {mode : RunMode} (hm : mode.isReadOnly = true)
    (before written : Text) (bs : List Filled) :
    (reportFrom e mode before written bs).map (·.startLine) =
      (Text.headsFrom before (bs.map (·.gap)) (bs.map (·.fence.raw))).map
        fun head => 1 + Text.occurrences e.text head := by
  induction bs generalizing before written with
  | nil => rfl
  | cons b bs ih =>
    simp only [reportFrom, hm, if_true, List.map_cons, Text.headsFrom, ih,
      LineEnding.lineCount_eq_occurrences]

end Document

/-- Between two weaves with the same gaps, the line endings in front of a text differ by those in the
texts before it. -/
theorem Text.occurrences_headsFrom_sub (e : LineEnding) {before before' : Text}
    {gaps ts rs : List Text} (hbefore : ∀ c ∈ before.getLast?, c ≠ '\r')
    (hbefore' : ∀ c ∈ before'.getLast?, c ≠ '\r') (hts : ∀ t ∈ ts, Bounded t)
    (hrs : ∀ r ∈ rs, Bounded r) {k : Nat} {head head' : Text}
    (hk : (headsFrom before gaps ts)[k]? = some head)
    (hk' : (headsFrom before' gaps rs)[k]? = some head') :
    (occurrences e.text head : ℤ) - occurrences e.text head' =
      occurrences e.text before - occurrences e.text before' +
        ((List.zipWith (fun t r => (occurrences e.text t : ℤ) - occurrences e.text r) ts rs).take
          k).sum := by
  induction gaps generalizing before before' ts rs k with
  | nil => simp [headsFrom] at hk
  | cons gap gaps ih =>
    rcases ts with - | ⟨t, ts⟩
    · simp [headsFrom] at hk
    rcases rs with - | ⟨r, rs⟩
    · simp [headsFrom] at hk'
    rw [List.forall_mem_cons] at hts hrs
    have hgap := LineEnding.occurrences_append e (Apart.of_getLast? (t := gap) hbefore)
    have hgap' := LineEnding.occurrences_append e (Apart.of_getLast? (t := gap) hbefore')
    cases k with
    | zero =>
      cases hk
      cases hk'
      rw [hgap, hgap', List.take_zero, List.sum_nil]
      push_cast
      ring
    | succ k =>
      have htext := LineEnding.occurrences_append e (hts.1.apart_left (before ++ gap))
      have htext' := LineEnding.occurrences_append e (hrs.1.apart_left (before' ++ gap))
      rw [ih (hts.1.getLast?_append_ne (before ++ gap)) (hrs.1.getLast?_append_ne (before' ++ gap))
        hts.2 hrs.2 hk hk', htext, htext', hgap, hgap', List.zipWith_cons_cons, List.take_succ_cons,
        List.sum_cons]
      push_cast
      ring

theorem Layout.byteSize_headsFrom (before : Text) (bs : List (Text × Fence)) :
    (Text.headsFrom before (bs.map (·.1)) (bs.map fun x => x.2.raw)).map Text.byteSize =
      (placedFrom before.byteSize bs).map (·.1) := by
  induction bs generalizing before with
  | nil => rfl
  | cons x bs ih =>
    obtain ⟨gap, f⟩ := x
    simp only [List.map_cons, Text.headsFrom, placedFrom, ih, Text.byteSize_append]

namespace Document

variable (fs : FileSystem) (options : EmbedOptions) (document : Path) (source : Text)

theorem map_text_fillAll (e : LineEnding) (l : Layout) :
    (fillAll fs options document e l).map Filled.text =
      List.zipWith (fun x o => Outcome.text x.2.raw o) l.blocks
        (l.blocks.map fun x => (fill fs options document e x.1 x.2).outcome) := by
  rw [fillAll, List.map_map, List.zipWith_map_right, List.zipWith_self]
  refine List.map_congr_left fun x _ => ?_
  rw [Function.comp_apply, Filled.text_eq, fence_fill]

theorem map_gap_fillAll (e : LineEnding) (l : Layout) :
    (fillAll fs options document e l).map (·.gap) = l.blocks.map (·.1) := by
  rw [fillAll, List.map_map]
  exact List.map_congr_left fun x _ => gap_fill

theorem map_raw_fillAll (e : LineEnding) (l : Layout) :
    (fillAll fs options document e l).map (·.fence.raw) = l.blocks.map fun x => x.2.raw := by
  rw [fillAll, List.map_map]
  refine List.map_congr_left fun x _ => ?_
  rw [Function.comp_apply, fence_fill]

theorem bounded_of_mem_blocks (e : LineEnding) : ∀ x ∈ (Layout.ofText source).blocks,
    (fill fs options document e x.1 x.2).text.Bounded ∧ x.2.raw.Bounded := by
  intro x hx
  have h := Layout.standsAfter_of_mem_blocks source x hx
  exact ⟨bounded_text_fill fs options document e h, h.bounded_raw⟩

def texts : List Text :=
  (fillAll fs options document (LineEnding.detect source) (Layout.ofText source)).map Filled.text

theorem bounded_of_mem_texts : ∀ t ∈ texts fs options document source, t.Bounded := by
  rw [texts, fillAll, List.map_map]
  exact List.forall_mem_map.2 fun x hx =>
    (bounded_of_mem_blocks fs options document source _ x hx).1

theorem zipWith_text_embed :
    List.zipWith (fun x b => b.outcome.text x.2.raw) (Scanner.fences source)
        (embed fs options document source).blocks = texts fs options document source := by
  rw [Scanner.zipWith_text_fences, map_outcome_embed, texts, map_text_fillAll]

theorem length_texts :
    (texts fs options document source).length = (Layout.ofText source).blocks.length := by
  rw [texts, fillAll, List.length_map, List.length_map]

theorem lines_embed_write :
    (embed fs { options with mode := .write } document source).blocks.map
        (fun b => (b.startLine, b.endLine)) =
      List.zipWith (fun head t =>
          (1 + Text.occurrences (LineEnding.detect source).text head,
            1 + Text.occurrences (LineEnding.detect source).text (head ++ t)))
        (Text.heads ((Layout.ofText source).blocks.map (·.1)) (texts fs options document source))
        (texts fs options document source) := by
  have hb := List.forall_mem_map.1 (bounded_of_mem_texts fs options document source)
  have hnil : ∀ c ∈ ([] : Text).getLast?, c ≠ '\r' := nofun
  have h := lines_reportFrom_write (e := LineEnding.detect source) [] hnil hb
  rw [map_gap_fillAll] at h
  exact h

theorem pairwise_lines_embed_write :
    ((embed fs { options with mode := .write } document source).blocks.flatMap
      fun b => [b.startLine, b.endLine]).Pairwise (· ≤ ·) := by
  have hb := List.forall_mem_map.1 (bounded_of_mem_texts fs options document source)
  have hnil : ∀ c ∈ ([] : Text).getLast?, c ≠ '\r' := nofun
  exact (pairwise_lines_reportFrom_write (e := LineEnding.detect source) [] hnil hb).2

section

variable {mode : RunMode} (hm : mode.isReadOnly = true)

include hm

theorem startLine_embed_readOnly :
    (embed fs { options with mode } document source).blocks.map (·.startLine) =
      (Text.heads ((Layout.ofText source).blocks.map (·.1))
          ((Layout.ofText source).blocks.map fun x => x.2.raw)).map
        fun head => 1 + Text.occurrences (LineEnding.detect source).text head := by
  have h := startLine_reportFrom_readOnly (e := LineEnding.detect source) hm [] []
    (fillAll fs options document (LineEnding.detect source) (Layout.ofText source))
  rw [map_gap_fillAll, map_raw_fillAll] at h
  exact h

/-- What the blocks before a block gained moves its first line. -/
theorem startLine_embed_sub {k : Nat} {b b' : Block}
    (hb : (embed fs { options with mode := .write } document source).blocks[k]? = some b)
    (hb' : (embed fs { options with mode } document source).blocks[k]? = some b') :
    (b.startLine : ℤ) - b'.startLine =
      ((List.zipWith (fun t r => (Text.occurrences (LineEnding.detect source).text t : ℤ) -
          Text.occurrences (LineEnding.detect source).text r) (texts fs options document source)
        ((Layout.ofText source).blocks.map fun x => x.2.raw)).take k).sum := by
  have hk := congrArg (·[k]?) (lines_embed_write fs options document source)
  have hk' := congrArg (·[k]?) (startLine_embed_readOnly fs options document source hm)
  simp only [List.getElem?_map, hb, hb', Option.map_some] at hk hk'
  obtain ⟨head, t, hhead, -, heq⟩ := List.getElem?_zipWith_eq_some.1 hk.symm
  obtain ⟨head', hhead', heq'⟩ := Option.map_eq_some_iff.1 hk'.symm
  have hnil : ∀ c ∈ ([] : Text).getLast?, c ≠ '\r' := nofun
  have hsub := Text.occurrences_headsFrom_sub (LineEnding.detect source) hnil hnil
    (bounded_of_mem_texts fs options document source)
    (List.forall_mem_map.2 fun x hx => (bounded_of_mem_blocks fs options document source .lf x hx).2)
    hhead hhead'
  rw [sub_self, zero_add] at hsub
  rw [← hsub, ← (Prod.mk.inj heq).1, ← heq']
  push_cast
  ring

end

end Document

/-- The lines of a report are exact. In all modes a report has the same output and says the same of
each block but for its lines. In write mode a block begins and ends at one line more than there are
line endings in the new document up to its beginning and its end, so the blocks follow one another; in
the other modes it begins at one line more than there are line endings in the old document in front of
its offset. The two beginnings differ by the line endings that the blocks before it gained. -/
theorem lines_embed (fs : FileSystem) (options : EmbedOptions) (document : Path) (source : Text) :
    let count := Text.occurrences (LineEnding.detect source).text
    let report := fun mode => Document.embed fs { options with mode } document source
    let output := (report .write).output
    let blocks := (report .write).blocks
    let fences := Scanner.fences source
    let raws := fences.map fun x => x.2.raw
    let texts := List.zipWith (fun x b => b.outcome.text x.2.raw) fences blocks
    (∀ mode, (report mode).output = output ∧
      (report mode).blocks.map (fun b => (b.extension?, b.target?, b.outcome)) =
        blocks.map fun b => (b.extension?, b.target?, b.outcome)) ∧
    ∃ (gaps : List Text) (tail : Text), gaps.length = fences.length ∧
      source = Text.weave tail gaps raws ∧ output = Text.weave tail gaps texts ∧
      List.Forall₂ (fun head t => head ++ t <+: output) (Text.heads gaps texts) texts ∧
      (Text.heads gaps raws).map Text.byteSize = fences.map (·.1) ∧
      blocks.map (fun b => (b.startLine, b.endLine)) =
        List.zipWith (fun head t => (1 + count head, 1 + count (head ++ t)))
          (Text.heads gaps texts) texts ∧
      (blocks.flatMap fun b => [b.startLine, b.endLine]).Pairwise (· ≤ ·) ∧
      ∀ mode : RunMode, mode.isReadOnly = true →
        (report mode).blocks.map (·.startLine) =
          (Text.heads gaps raws).map (fun head => 1 + count head) ∧
        ∀ (k : Nat) (b b' : Block), blocks[k]? = some b → (report mode).blocks[k]? = some b' →
          (b.startLine : ℤ) - b'.startLine =
            ((List.zipWith (fun t r => (count t : ℤ) - count r) texts raws).take k).sum := by
  intro count report output blocks fences raws texts
  let layout := Layout.ofText source
  have htexts : texts = Document.texts fs options document source :=
    Document.zipWith_text_embed fs { options with mode := .write } document source
  have hraws : raws = layout.blocks.map fun x => x.2.raw := Scanner.map_raw_fences source
  have houtput : output = Text.weave layout.tail (layout.blocks.map (·.1)) texts :=
    (Document.output_embed_eq_weave fs { options with mode := .write } document source).trans
      (congrArg _ (Scanner.zipWith_text_fences source blocks).symm)
  have hlength : (layout.blocks.map (·.1)).length = texts.length := by
    rw [htexts, Document.length_texts, List.length_map]
  refine ⟨fun mode => ⟨rfl, Document.map_blocks_embed_mode fs { options with mode := .write }
    document source mode⟩, layout.blocks.map (·.1), layout.tail, ?_, ?_, houtput, ?_, ?_, ?_,
    Document.pairwise_lines_embed_write fs options document source, fun mode hm => ⟨?_, ?_⟩⟩
  · rw [List.length_map, Scanner.length_fences]
  · rw [hraws, ← Layout.text_eq_weave]
    exact (Layout.text_ofText source).symm
  · rw [houtput]
    exact Text.forall₂_headsFrom [] layout.tail hlength
  · have h := Layout.byteSize_headsFrom [] layout.blocks
    rw [← hraws] at h
    exact h.trans (congrArg _ (Scanner.fences_eq_placedFrom source).symm)
  · rw [htexts]
    exact Document.lines_embed_write fs options document source
  · rw [hraws]
    exact Document.startLine_embed_readOnly fs options document source hm
  · intro k b b' hb hb'
    rw [htexts, hraws]
    exact Document.startLine_embed_sub fs options document source hm hb hb'

end FenceSync
