import FenceSync.Proofs.Embed.Again
import FenceSync.Proofs.Files.Alike
/-!
# What a block depends on

Two runs on the same document find the same directives, whatever the files are. A block that has a
directive is filled alike in both, provided that the lines it names are the same; what the other
blocks of the document find does not matter. Where a document stands and how a run is told to look
for sources matter only as far as other texts are read.
-/
namespace FenceSync

def FileSystem.selected? (fs : FileSystem) (p : Path) (range : Option LineRange) :
    Option (List Text) :=
  (fs.read p).toOption.map fun content => Snippet.select range (Snippet.lines content)

/-- Two file systems that cannot be told apart by a range of a file. -/
structure FileSystem.AgreeAt (fs fs' : FileSystem) (p : Path) (range : Option LineRange) :
    Prop where
  exists? : fs.exists? p = fs'.exists? p
  selected? : fs.selected? p range = fs'.selected? p range

/-- The reason without the words of the system about a file that it could not read. -/
def SkipReason.lessCause : SkipReason → SkipReason
  | .unreadable resolved _ => .unreadable resolved []
  | reason => reason

namespace Outcome

def lessCause : Outcome → Outcome
  | .unchanged reason => .unchanged reason.lessCause
  | .replaced text lineCount => .replaced text lineCount

theorem text_lessCause (o : Outcome) (present : Text) :
    o.lessCause.text present = o.text present := by
  cases o <;> rfl

end Outcome

/-- What stands in the file outside of the range has no part in the snippet. -/
theorem Snippet.mapError_ofTarget_eq {fs fs' : FileSystem} {options : EmbedOptions}
    {document : Path} {target : Target}
    (h : fs.AgreeAt fs' (sourcePath options document target.path) target.range) (e : LineEnding) :
    (ofTarget fs options document e target).mapError SkipReason.lessCause =
      (ofTarget fs' options document e target).mapError SkipReason.lessCause := by
  rw [ofTarget, ofTarget, h.exists?]
  cases fs'.exists? (sourcePath options document target.path) with
  | false => rfl
  | true =>
    have hlines := h.selected?
    rw [FileSystem.selected?, FileSystem.selected?] at hlines
    cases hread : fs.read (sourcePath options document target.path) with
    | error cause =>
      cases hread' : fs'.read (sourcePath options document target.path) with
      | error cause' => rfl
      | ok content' =>
        rw [hread, hread'] at hlines
        cases hlines
    | ok content =>
      cases hread' : fs'.read (sourcePath options document target.path) with
      | error cause' =>
        rw [hread, hread'] at hlines
        cases hlines
      | ok content' =>
        rw [hread, hread'] at hlines
        have hselected := Option.some.inj hlines
        simp only [hselected]

namespace Document

section

variable {fs fs' : FileSystem} {options : EmbedOptions} {document : Path} {e : LineEnding}
  {gap : Text} {f : Fence}

/-- The two file systems agree about the lines that the reference of a block names. -/
def SourceAgrees (fs fs' : FileSystem) (options : EmbedOptions) (document : Path)
    (target? : Option Text) : Prop :=
  ∀ reference ∈ target?, ∀ target, Target.ofReference reference = .ok target →
    fs.AgreeAt fs' (Snippet.sourcePath options document target.path) target.range

theorem SourceAgrees.of_target {reference : Text} {target : Target}
    (ht : Target.ofReference reference = .ok target)
    (h : fs.AgreeAt fs' (Snippet.sourcePath options document target.path) target.range) :
    SourceAgrees fs fs' options document (some reference) := by
  intro reference' hr target' ht'
  cases hr
  rw [ht] at ht'
  cases ht'
  exact h

/-- The reference is read off the document alone. -/
theorem target?_fill : (fill fs options document e gap f).target? =
    (Directive.ofFence e f (Preceding.scan gap)).toOption.map (·.reference) := by
  rw [fill]
  cases Directive.ofFence e f (Preceding.scan gap) with
  | error reason => rfl
  | ok directive =>
    cases hs : Snippet.ofTarget fs options document e directive.target with
    | error reason =>
      simp only [hs]
      rfl
    | ok snippet =>
      simp only [hs]
      rfl

def outcomeOf (options : EmbedOptions) (e : LineEnding) (f : Fence) (directive : Directive) :
    Except SkipReason Snippet → Outcome
  | .error reason => .unchanged reason
  | .ok snippet =>
    Outcome.ofRendered (renderWith options e f directive snippet) f.raw snippet.lineCount

theorem outcome_fill {directive : Directive}
    (h : Directive.ofFence e f (Preceding.scan gap) = .ok directive) :
    (fill fs options document e gap f).outcome = outcomeOf options e f directive
      (Snippet.ofTarget fs options document e directive.target) := by
  rw [fill, h]
  cases hs : Snippet.ofTarget fs options document e directive.target with
  | error reason => simp only [hs, outcomeOf]
  | ok snippet => simp only [hs, outcomeOf]

theorem lessCause_outcomeOf (directive : Directive) (r : Except SkipReason Snippet) :
    (outcomeOf options e f directive r).lessCause =
      (outcomeOf options e f directive (r.mapError SkipReason.lessCause)).lessCause := by
  cases r with
  | error reason => cases reason <;> rfl
  | ok snippet => rfl

/-- A block is filled alike if its lines are alike. -/
theorem lessCause_outcome_fill
    (h : SourceAgrees fs fs' options document (fill fs options document e gap f).target?) :
    (fill fs options document e gap f).outcome.lessCause =
      (fill fs' options document e gap f).outcome.lessCause := by
  cases hd : Directive.ofFence e f (Preceding.scan gap) with
  | error reason => rw [fill, fill, hd]
  | ok directive =>
    rw [target?_fill, hd] at h
    have hagree := h _ rfl _ (Directive.target_of_ofFence hd)
    rw [outcome_fill hd, outcome_fill hd, lessCause_outcomeOf,
      Snippet.mapError_ofTarget_eq hagree, ← lessCause_outcomeOf]

theorem text_fill_eq
    (h : SourceAgrees fs fs' options document (fill fs options document e gap f).target?) :
    (fill fs options document e gap f).text = (fill fs' options document e gap f).text := by
  rw [Filled.text_eq, Filled.text_eq, ← Outcome.text_lessCause, lessCause_outcome_fill h,
    Outcome.text_lessCause, fence_fill, fence_fill]

end

variable (fs : FileSystem) (options : EmbedOptions) (document : Path) (source : Text)

theorem getElem?_blocks_embed {i : Nat} {x : Text × Fence}
    (h : (Layout.ofText source).blocks[i]? = some x) :
    ∃ b, (embed fs options document source).blocks[i]? = some b ∧
      b.target? = (fill fs options document (LineEnding.detect source) x.1 x.2).target? ∧
      b.outcome = (fill fs options document (LineEnding.detect source) x.1 x.2).outcome := by
  have hmap := congrArg (·[i]?) (map_blocks_embed fs options document source)
  simp only [fillAll, List.getElem?_map, h, Option.map_some, Option.map_eq_some_iff,
    Prod.mk.injEq] at hmap
  obtain ⟨b, hb, -, ht, ho⟩ := hmap
  exact ⟨b, hb, ht, ho⟩

theorem output_embed_eq_of_agree {fs' : FileSystem}
    (h : ∀ b ∈ (embed fs options document source).blocks,
      SourceAgrees fs fs' options document b.target?) :
    (embed fs options document source).output = (embed fs' options document source).output := by
  simp only [embed, assemble, fillAll, List.flatMap_map]
  congr 1
  refine List.flatMap_congr fun x hx => ?_
  obtain ⟨i, hi⟩ := List.getElem?_of_mem hx
  obtain ⟨b, hb, ht, -⟩ := getElem?_blocks_embed fs options document source hi
  have hagree := h b (List.mem_of_getElem? hb)
  rw [ht] at hagree
  simp only [gap_fill, text_fill_eq hagree]

end Document

namespace Document

def targets (source : Text) : List Target :=
  (Layout.ofText source).blocks.filterMap fun (gap, f) =>
    (Directive.ofFence (LineEnding.detect source) f (Preceding.scan gap)).toOption.map (·.target)

section

variable {fs : FileSystem} {options options' : EmbedOptions} {document document' : Path}

def ReadsAlike (fs : FileSystem) (options options' : EmbedOptions) (document document' : Path)
    (target : Target) : Prop :=
  ∀ content, fs.read (Snippet.sourcePath options' document' target.path) = .ok content ↔
    fs.read (Snippet.sourcePath options document target.path) = .ok content

theorem ReadsAlike.symm {target : Target}
    (h : ReadsAlike fs options options' document document' target) :
    ReadsAlike fs options' options document' document target := fun content => (h content).symm

theorem ReadsAlike.ofTarget_eq_ok {target : Target} {e : LineEnding} {snippet : Snippet}
    (h : ReadsAlike fs options options' document document' target)
    (hs : Snippet.ofTarget fs options document e target = .ok snippet) :
    Snippet.ofTarget fs options' document' e target = .ok snippet := by
  obtain ⟨-, content, hread, hsnippet⟩ := Snippet.ofTarget_eq_ok_iff.1 hs
  have hread' := (h content).2 hread
  exact Snippet.ofTarget_eq_ok_iff.2
    ⟨FileSystem.exists?_of_read_eq_ok hread', content, hread', hsnippet⟩

variable (hstrip : options'.stripComment = options.stripComment)

include hstrip

theorem text_fill_of_readsAlike {e : LineEnding} {gap : Text} {f : Fence}
    (h : ∀ d, Directive.ofFence e f (Preceding.scan gap) = .ok d →
      ReadsAlike fs options options' document document' d.target) :
    (fill fs options' document' e gap f).text = (fill fs options document e gap f).text := by
  have hcomment (d : Directive) : comment? options' e f d = comment? options e f d := by
    rw [comment?, comment?, hstrip]
  rcases fill_cases fs options document e gap f with ⟨_, _, hfill⟩ | ⟨d, snippet, hs⟩
  · rcases fill_cases fs options' document' e gap f with ⟨_, _, hfill'⟩ | ⟨d, snippet, hs'⟩
    · rw [hfill, hfill', Filled.text, Filled.text]
    · have hs : Supplied fs options document e gap f d snippet :=
        ⟨hs'.found, (h d hs'.found).symm.ofTarget_eq_ok hs'.loaded⟩
      rw [text_fill_of_supplied hs, text_fill_of_supplied hs', hcomment]
  · have hs' : Supplied fs options' document' e gap f d snippet :=
      ⟨hs.found, (h d hs.found).ofTarget_eq_ok hs.loaded⟩
    rw [text_fill_of_supplied hs, text_fill_of_supplied hs', hcomment]

variable {source : Text}
  (h : ∀ t ∈ targets source, ReadsAlike fs options options' document document' t)

include h

theorem text_fill_eq_of_mem_blocks {x : Text × Fence} (hx : x ∈ (Layout.ofText source).blocks) :
    (fill fs options' document' (LineEnding.detect source) x.1 x.2).text =
      (fill fs options document (LineEnding.detect source) x.1 x.2).text := by
  refine text_fill_of_readsAlike hstrip fun d hd => h d.target ?_
  exact List.mem_filterMap.2 ⟨x, hx, by simp only [hd]; rfl⟩

theorem output_embed_of_readsAlike : (embed fs options' document' source).output =
    (embed fs options document source).output := by
  simp only [embed, assemble, fillAll, List.flatMap_map]
  congr 1
  refine List.flatMap_congr fun x hx => ?_
  simp only [gap_fill, text_fill_eq_of_mem_blocks hstrip h hx]

theorem changed_embed_of_readsAlike : (embed fs options' document' source).changed =
    (embed fs options document source).changed := by
  rw [Bool.eq_iff_iff, changed_embed_iff_exists, changed_embed_iff_exists]
  refine exists_congr fun x => and_congr_right fun hx => ?_
  rw [text_fill_eq_of_mem_blocks hstrip h hx]

end

end Document

/-- Extension and target of a block are those of the document. What becomes of a block, but for the
words of the system about a file that cannot be read, depends on nothing but the lines that its
target names; and so does the new document as a whole. -/
theorem embed_depends_on_named_lines (fs fs' : FileSystem) (options : EmbedOptions)
    (document : Path) (source : Text) :
    let report := Document.embed fs options document source
    let report' := Document.embed fs' options document source
    report.blocks.map (fun b => (b.extension?, b.target?)) =
      report'.blocks.map (fun b => (b.extension?, b.target?)) ∧
    (∀ (i : Nat) (f : Fence), (Layout.ofText source).fences[i]? = some f → ∃ b b' : Block,
      report.blocks[i]? = some b ∧ report'.blocks[i]? = some b' ∧
      (Document.SourceAgrees fs fs' options document b.target? →
        b.outcome.lessCause = b'.outcome.lessCause ∧
          b.outcome.text f.raw = b'.outcome.text f.raw)) ∧
    ((∀ b ∈ report.blocks, Document.SourceAgrees fs fs' options document b.target?) →
      report.output = report'.output) := by
  intro report report'
  refine ⟨?_, fun i f hf => ?_, Document.output_embed_eq_of_agree fs options document source⟩
  · have h := congrArg (List.map fun x => (x.1, x.2.1))
      (Document.map_blocks_embed fs options document source)
    have h' := congrArg (List.map fun x => (x.1, x.2.1))
      (Document.map_blocks_embed fs' options document source)
    rw [Document.fillAll, List.map_map, List.map_map, List.map_map] at h h'
    refine h.trans (Eq.trans (List.map_congr_left fun x _ => ?_) h'.symm)
    simp only [Function.comp_apply, Document.fence_fill, Document.target?_fill]
  · rw [Layout.fences, List.getElem?_map, Option.map_eq_some_iff] at hf
    obtain ⟨x, hx, rfl⟩ := hf
    obtain ⟨b, hb, ht, ho⟩ := Document.getElem?_blocks_embed fs options document source hx
    obtain ⟨b', hb', -, ho'⟩ := Document.getElem?_blocks_embed fs' options document source hx
    refine ⟨b, b', hb, hb', fun hagree => ?_⟩
    rw [ht] at hagree
    have hcause : b.outcome.lessCause = b'.outcome.lessCause := by
      rw [ho, ho', Document.lessCause_outcome_fill hagree]
    refine ⟨hcause, ?_⟩
    rw [← Outcome.text_lessCause, hcause, Outcome.text_lessCause]

/-- The first block names a line that both files begin with, the second a file that only one file
system has, and the third a file that neither can read. -/
theorem embed_depends_on_named_lines_sample :
    let fs : FileSystem := ⟨[(["a".toList], .file (Text.bytes "x\ny\n".toList)),
      (["b".toList], .file (Text.bytes "z\n".toList)), (["d".toList], .directory)], []⟩
    let fs' : FileSystem := ⟨[(["a".toList], .file (Text.bytes "x\n\u2028w\n".toList)),
      (["d".toList], .file [255])], []⟩
    let options : EmbedOptions := ⟨none, false, .write, ⟨[]⟩⟩
    let document : Path := ⟨"D.md".toList⟩
    let first : Text := "\x60\x60\x60js\n// a#L1-L1\n\x60\x60\x60\n".toList
    let second : Text := "\x60\x60\x60js\n// b\n\x60\x60\x60\n".toList
    let third : Text := "\x60\x60\x60js\n// d\n\x60\x60\x60\n".toList
    Document.SourceAgrees fs fs' options document (some "a#L1-L1".toList) ∧
      Document.SourceAgrees fs fs' options document (some "d".toList) ∧
      (Document.embed fs options document (first ++ second)).output ≠
        (Document.embed fs' options document (first ++ second)).output ∧
      (∃ b b' : Block, (Document.embed fs options document (second ++ first)).blocks[1]? = some b ∧
        (Document.embed fs' options document (second ++ first)).blocks[1]? = some b' ∧
        b.outcome.isReplaced = true ∧ b.outcome.lessCause = b'.outcome.lessCause) ∧
      (Document.embed fs options document (first ++ third)).output =
        (Document.embed fs' options document (first ++ third)).output := by
  intro fs fs' options document first second third
  have hfirst : Document.SourceAgrees fs fs' options document (some "a#L1-L1".toList) :=
    .of_target (show Target.ofReference _ = .ok ⟨['a'], some ⟨1, 1⟩⟩ by decide +kernel)
      ⟨by decide +kernel, by decide +kernel⟩
  have hthird : Document.SourceAgrees fs fs' options document (some "d".toList) :=
    .of_target (show Target.ofReference _ = .ok ⟨['d'], none⟩ by decide +kernel)
      ⟨by decide +kernel, by decide +kernel⟩
  refine ⟨hfirst, hthird, by decide +kernel, ?_, ?_⟩
  · obtain ⟨b, b', hb, hb', h⟩ :=
      (embed_depends_on_named_lines fs fs' options document (second ++ first)).2.1 1
        ⟨[], "js\n// a#L1-L1\n\x60\x60\x60".toList⟩ (by decide +kernel)
    have htarget : (Document.embed fs options document (second ++ first)).blocks[1]?.bind
        (·.target?) = some "a#L1-L1".toList := by decide +kernel
    have hreplaced : (Document.embed fs options document (second ++ first)).blocks[1]?.map
        (·.outcome.isReplaced) = some true := by decide +kernel
    rw [hb] at htarget hreplaced
    refine ⟨b, b', hb, hb', Option.some.inj hreplaced, (h ?_).1⟩
    rw [Option.bind_some] at htarget
    rw [htarget]
    exact hfirst
  · refine (embed_depends_on_named_lines fs fs' options document (first ++ third)).2.2
      fun b hb => ?_
    have htargets : (Document.embed fs options document (first ++ third)).blocks.map
        (·.target?) = [some "a#L1-L1".toList, some "d".toList] := by decide +kernel
    have ht := List.mem_map_of_mem (f := (·.target?)) hb
    rw [htargets] at ht
    rcases List.mem_pair.1 ht with h | h
    · rw [h]
      exact hfirst
    · rw [h]
      exact hthird

end FenceSync
