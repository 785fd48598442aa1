import FenceSync.Proofs.Embed.Again
import Mathlib.Data.List.TakeDrop
/-!
# The lines of a range

A range selects the lines whose numbers lie in it, counted from one, however far past the end it
reaches. So ranges that follow one another select parts that follow one another, and what the report
on a block says of their number can be worked out from the range and the file.
-/
namespace FenceSync

namespace LineRange

def within (range : LineRange) (lines : List Text) : List Text :=
  ((lines.zipIdx 1).filter fun x => range.first ≤ x.2 ∧ x.2 ≤ range.last).map Prod.fst

/-- How many of so many lines lie in a range that does not begin at zero. -/
def extent (range : LineRange) (n : Nat) : Int :=
  max 0 (min (range.last : Int) n - range.first + 1)

end LineRange

namespace Snippet

variable {range : LineRange} {lines : List Text} {first last a b c : Nat}

theorem select_eq_drop_take (h : 1 ≤ first) :
    select (some ⟨first, last⟩) lines = (lines.take last).drop (first - 1) := by
  obtain ⟨n, rfl⟩ := Nat.exists_eq_add_of_le' h
  have htake : lines.take (min last lines.length) = lines.take last :=
    List.take_eq_take_iff.2 (by omega)
  simp only [select, htake, Nat.add_sub_cancel]
  exact List.drop_eq_drop_iff.2 (by simp only [List.length_take]; omega)

/-- The lines with a number from `first` to `last` when the first line of all has number `n`. -/
theorem map_filter_zipIdx (lines : List Text) (n : Nat) :
    ((lines.zipIdx n).filter fun x => first ≤ x.2 ∧ x.2 ≤ last).map Prod.fst =
      (lines.take (last + 1 - n)).drop (first - n) := by
  induction lines generalizing n with
  | nil => simp
  | cons l lines ih =>
    rw [List.zipIdx_cons, List.filter_cons]
    by_cases hlast : n ≤ last
    · have htake : last + 1 - n = last + 1 - (n + 1) + 1 := by omega
      rw [htake, List.take_succ_cons]
      by_cases hfirst : first ≤ n
      · rw [if_pos (by simpa using ⟨hfirst, hlast⟩), List.map_cons, ih,
          Nat.sub_eq_zero_of_le hfirst, Nat.sub_eq_zero_of_le (hfirst.trans (Nat.le_succ n))]
        rfl
      · have hdrop : first - n = first - (n + 1) + 1 := by omega
        rw [if_neg (by simp [hfirst]), ih, hdrop, List.drop_succ_cons]
    · -- past the range nothing is left to select
      have hn : last + 1 - n = 0 := by omega
      have hsucc : last + 1 - (n + 1) = 0 := by omega
      rw [if_neg (by simp [hlast]), ih, hn, hsucc, List.take_zero, List.take_zero, List.drop_nil,
        List.drop_nil]

/-- A range that begins at a line selects the lines that lie in it. -/
theorem select_eq_within (h : 1 ≤ range.first) :
    select (some range) lines = range.within lines := by
  obtain ⟨first, last⟩ := range
  rw [select_eq_drop_take h, LineRange.within, map_filter_zipIdx, Nat.add_sub_cancel]

theorem length_select (h : 1 ≤ range.first) :
    ((select (some range) lines).length : Int) = range.extent lines.length := by
  obtain ⟨first, last⟩ := range
  rw [select_eq_drop_take h, List.length_drop, List.length_take, LineRange.extent]
  dsimp only at h ⊢
  omega

/-- A range that begins at zero selects the last line if it reaches that far. -/
theorem select_zero (last : Nat) (lines : List Text) :
    select (some ⟨0, last⟩) lines =
      if 1 ≤ lines.length ∧ lines.length ≤ last then lines.getLast?.toList else [] := by
  simp only [select]
  split
  · next h =>
    obtain ⟨hne, hlast⟩ := h
    have hne : lines ≠ [] := List.length_pos_iff.1 hne
    rw [Nat.min_eq_right hlast, List.take_length, List.drop_length_sub_one hne,
      List.getLast?_eq_some_getLast hne]
    rfl
  · next h =>
    rw [List.drop_eq_nil_iff, List.length_take]
    omega

/-- Two ranges that follow one another select what one range over both selects. -/
theorem select_append_select (ha : 1 ≤ a) (hab : a ≤ b) (hbc : b ≤ c) :
    select (some ⟨a, b⟩) lines ++ select (some ⟨b + 1, c⟩) lines = select (some ⟨a, c⟩) lines := by
  have htake : lines.take b = (lines.take c).take b := by rw [List.take_take, Nat.min_eq_left hbc]
  have hb : a - 1 + (b - (a - 1)) = b := by omega
  calc select (some ⟨a, b⟩) lines ++ select (some ⟨b + 1, c⟩) lines
      = (lines.take b).drop (a - 1) ++ (lines.take c).drop b := by
        rw [select_eq_drop_take ha, select_eq_drop_take (Nat.le_add_left 1 b), Nat.add_sub_cancel]
    _ = ((lines.take c).drop (a - 1)).take (b - (a - 1)) ++
          (lines.take c).drop (a - 1 + (b - (a - 1))) := by rw [htake, List.drop_take, hb]
    _ = (lines.take c).drop (a - 1) := List.drop_take_append_drop _ _ _
    _ = select (some ⟨a, c⟩) lines := (select_eq_drop_take ha).symm

end Snippet

namespace Document

variable {fs : FileSystem} {options : EmbedOptions} {document : Path} {e : LineEnding}
  {gap text : Text} {f : Fence} {count : Nat}

theorem exists_supplied_of_fill
    (h : (fill fs options document e gap f).outcome = .replaced text count) :
    ∃ directive snippet, Supplied fs options document e gap f directive snippet ∧
      (fill fs options document e gap f).target? = some directive.reference ∧
      count = snippet.lineCount := by
  rcases fill_cases fs options document e gap f with ⟨_, _, hf⟩ | ⟨directive, snippet, hs⟩
  · rw [hf] at h
    cases h
  · have hf := fill_of_supplied hs
    refine ⟨directive, snippet, hs, by rw [hf], ?_⟩
    rw [hf, Outcome.ofRendered] at h
    split at h
    · cases h
    · cases h
      rfl

/-- A block that is reported as replaced was filled with a snippet, and the report says how many
lines were selected for it. -/
theorem exists_supplied_of_mem_blocks {source : Text} {block : Block}
    (hb : block ∈ (embed fs options document source).blocks)
    (h : block.outcome = .replaced text count) :
    ∃ gap f directive snippet,
      Supplied fs options document (LineEnding.detect source) gap f directive snippet ∧
        block.target? = some directive.reference ∧ count = snippet.lineCount := by
  have hmem := List.mem_map_of_mem (f := fun b => (b.extension?, b.target?, b.outcome)) hb
  rw [map_blocks_embed, fillAll, List.map_map] at hmem
  obtain ⟨⟨gap, f⟩, -, hx⟩ := List.mem_map.1 hmem
  simp only [Function.comp_apply, Prod.mk.injEq] at hx
  obtain ⟨-, htarget, houtcome⟩ := hx
  obtain ⟨directive, snippet, hs, hreference, hcount⟩ := exists_supplied_of_fill (houtcome.trans h)
  exact ⟨gap, f, directive, snippet, hs, htarget.symm.trans hreference, hcount⟩

theorem Supplied.lineCount_eq {directive : Directive} {snippet : Snippet}
    (h : Supplied fs options document e gap f directive snippet) :
    ∃ content, fs.read (Snippet.sourcePath options document directive.target.path) = .ok content ∧
      snippet.lineCount =
        (Snippet.select directive.target.range (Snippet.lines content)).length := by
  obtain ⟨-, content, hread, -, rfl⟩ := Snippet.ofTarget_eq_ok_iff.1 h.loaded
  exact ⟨content, hread, rfl⟩

end Document

/-- A range that begins at a line selects the lines whose numbers lie in it, in order, and one that
begins at zero the last line if it reaches that far. So ranges that follow one another select parts
that follow one another, and a report says of every block that a range fills how many lines lie in
the range. -/
theorem select_slices :
    (∀ (lines : List Text) (range : LineRange), 1 ≤ range.first →
      Snippet.select (some range) lines = range.within lines ∧
        ((Snippet.select (some range) lines).length : Int) = range.extent lines.length) ∧
      (∀ (lines : List Text) (last : Nat), Snippet.select (some ⟨0, last⟩) lines =
        if 1 ≤ lines.length ∧ lines.length ≤ last then lines.getLast?.toList else []) ∧
      (∀ (lines : List Text) (a b c : Nat), 1 ≤ a → a ≤ b → b < c →
        Snippet.select (some ⟨a, b⟩) lines ++ Snippet.select (some ⟨b + 1, c⟩) lines =
          Snippet.select (some ⟨a, c⟩) lines) ∧
      ∀ (fs : FileSystem) (options : EmbedOptions) (document : Path) (source : Text),
        ∀ block ∈ (Document.embed fs options document source).blocks, ∀ text count,
          block.outcome = .replaced text count →
            ∃ reference target content, block.target? = some reference ∧
              Target.ofReference reference = .ok target ∧
              fs.read (Snippet.sourcePath options document target.path) = .ok content ∧
              ∀ range, target.range = some range → 1 ≤ range.first →
                (count : Int) = range.extent (Snippet.lines content).length := by
  refine ⟨fun lines range h => ⟨Snippet.select_eq_within h, Snippet.length_select h⟩,
    fun lines last => Snippet.select_zero last lines,
    fun lines a b c ha hab hbc => Snippet.select_append_select ha hab hbc.le,
    fun fs options document source block hb text count h => ?_⟩
  obtain ⟨gap, f, directive, snippet, hs, hreference, rfl⟩ :=
    Document.exists_supplied_of_mem_blocks hb h
  obtain ⟨content, hread, hcount⟩ := hs.lineCount_eq
  refine ⟨directive.reference, directive.target, content, hreference,
    Directive.target_of_ofFence hs.found, hread, fun range hrange hfirst => ?_⟩
  rw [hcount, hrange, Snippet.length_select hfirst]

/-- Of three lines, a range that reaches past the end selects the last two, and the report says so
of the block. -/
theorem select_slices_sample :
    let lines : List Text := [['x'], [], ['y']]
    let fs : FileSystem := ⟨[(["a".toList], .file (Text.bytes "x\n\ny".toList))], []⟩
    let options : EmbedOptions := ⟨none, false, .write, ⟨[]⟩⟩
    let document : Path := ⟨"D.md".toList⟩
    let source : Text := "<!-- embed-directive a#L2-L9 -->\x60\x60\x60js\n\x60\x60\x60\n".toList
    let block : Block := ⟨1, 3, some "js".toList, some "a#L2-L9".toList,
      .replaced "\x60\x60\x60js\ny\n\x60\x60\x60".toList 2⟩
    1 ≤ (⟨2, 9⟩ : LineRange).first ∧ Snippet.select (some ⟨2, 9⟩) lines = [[], ['y']] ∧
      Snippet.select (some ⟨0, 9⟩) lines = [['y']] ∧ Snippet.select (some ⟨0, 2⟩) lines = [] ∧
      Snippet.select (some ⟨1, 1⟩) lines ++ Snippet.select (some ⟨2, 9⟩) lines = lines ∧
      block ∈ (Document.embed fs options document source).blocks ∧
      ∃ reference target content, block.target? = some reference ∧
        Target.ofReference reference = .ok target ∧
        fs.read (Snippet.sourcePath options document target.path) = .ok content ∧
        ∀ range, target.range = some range → 1 ≤ range.first →
          ((2 : Nat) : Int) = range.extent (Snippet.lines content).length := by
  intro lines fs options document source block
  obtain ⟨hrange, hzero, happend, hreport⟩ := select_slices
  have hfirst : 1 ≤ (⟨2, 9⟩ : LineRange).first := by decide
  have hblock : block ∈ (Document.embed fs options document source).blocks := by decide +kernel
  exact ⟨hfirst, (hrange lines ⟨2, 9⟩ hfirst).1, hzero lines 9, hzero lines 2,
    (happend lines 1 1 9 (by decide) (by decide) (by decide)).trans rfl, hblock,
    hreport fs options document source block hblock _ _ rfl⟩

end FenceSync
