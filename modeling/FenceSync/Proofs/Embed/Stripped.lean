import FenceSync.Proofs.Embed.Again
/-!
# A second run without comment lines

When the comment lines are left out, a block loses the directive that it was filled by, and its
first line is then the first line of the file. A second run changes nothing unless such a line is
read as a directive again, and names something else than what the block holds.
-/
namespace FenceSync

namespace Fence

/-- A block without a comment line tells its body. -/
theorem raw_written_none_inj {e : LineEnding} {f : Fence}
    (hi : ∀ c ∈ f.indent, Text.isIndent c = true) {body body' : Text} :
    (f.written e none body).raw = (f.written e none body').raw ↔ body = body' := by
  have h := (indentLines_injective (inline_of_forall_isIndent hi) e).eq_iff (a := body) (b := body')
  simp [raw, written, h]

end Fence

namespace Document

variable {fs : FileSystem} {options : EmbedOptions} {document : Path} {e : LineEnding} {gap : Text}
  {f : Fence} {directive : Directive} {snippet : Snippet}

/-- When a block that was filled by its first line stands without that line, nothing fills it with
another text. -/
def SettlesStripped (fs : FileSystem) (options : EmbedOptions) (document : Path) (e : LineEnding)
    (gap : Text) (f : Fence) : Prop :=
  ∀ directive snippet, Supplied fs options document e gap f directive snippet →
    directive.override? = none → ∀ directive' snippet',
      Supplied fs options document e gap (f.written e none snippet.body) directive' snippet' →
      snippet'.body = snippet.body

section

variable (hstrip : options.stripComment = true)

include hstrip

theorem comment?_of_strip (e : LineEnding) (f : Fence) (directive : Directive) :
    comment? options e f directive = none := by
  simp [comment?, hstrip]

theorem not_closedByComment_of_strip (gap : Text) (f : Fence) :
    ¬ ClosedByComment fs options document e gap f := by
  rintro ⟨directive, _, _, -, hcomment, -⟩
  rw [comment?_of_strip hstrip] at hcomment
  cases hcomment

theorem text_fill_of_strip (h : Supplied fs options document e gap f directive snippet) :
    (fill fs options document e gap f).text = (f.written e none snippet.body).raw := by
  rw [text_fill_of_supplied h, comment?_of_strip hstrip]

/-- A block without a comment line stays as it is only if it is filled with the body that it has. -/
theorem text_fill_written_iff (hi : ∀ c ∈ f.indent, Text.isIndent c = true) {body : Text}
    (h : Supplied fs options document e gap (f.written e none body) directive snippet) :
    (fill fs options document e gap (f.written e none body)).text = (f.written e none body).raw ↔
      snippet.body = body := by
  rw [text_fill_of_strip hstrip h, Fence.written_written_none, Fence.raw_written_none_inj hi]

/-- A block stays as it has become if its first line, which was a line of the file, names nothing
else. -/
theorem text_fill_result_iff (hi : ∀ c ∈ f.indent, Text.isIndent c = true) :
    (fill fs options document e gap (fill fs options document e gap f).result).text =
        (fill fs options document e gap f).result.raw ↔
      SettlesStripped fs options document e gap f := by
  by_cases hsupplied : ∃ directive snippet, Supplied fs options document e gap f directive snippet
  · obtain ⟨directive, snippet, h⟩ := hsupplied
    have hresult : (fill fs options document e gap f).result = f.written e none snippet.body := by
      rw [result_fill_of_supplied h, comment?_of_strip hstrip]
    rw [hresult]
    constructor
    · intro heq directive₁ snippet₁ h₁ ho directive' snippet' h'
      cases h.snippet_eq h₁
      exact (text_fill_written_iff hstrip hi h').1 heq
    · intro hs
      rcases fill_cases fs options document e gap (f.written e none snippet.body) with
        ⟨_, _, h'⟩ | ⟨directive', snippet', h'⟩
      · rw [h']
        rfl
      · rw [text_fill_written_iff hstrip hi h']
        by_cases ho : directive.override? = none
        · exact hs directive snippet h ho directive' snippet' h'
        · -- the directive still stands in front of the block
          rw [(h.of_override? ho _).snippet_eq h']
  · have hs : SettlesStripped fs options document e gap f :=
      fun directive snippet h => absurd ⟨directive, snippet, h⟩ hsupplied
    rcases fill_cases fs options document e gap f with ⟨_, _, h⟩ | h
    · rw [result_fill_of_unchanged h]
      simp only [hs, iff_true]
      rw [h]
      rfl
    · exact absurd h hsupplied

end

end Document

/-- With the comment lines left out, a second run changes nothing exactly if no block that was
filled by its first line is filled with something else by the line that has come in its place. -/
theorem embed_embed_stripped_iff (fs : FileSystem) (options : EmbedOptions) (document : Path)
    (source : Text) (hstrip : options.stripComment = true)
    (hending : LineEnding.detect (Document.embed fs options document source).output =
      LineEnding.detect source) :
    (Document.embed fs options document
        (Document.embed fs options document source).output).output =
      (Document.embed fs options document source).output ↔
    ∀ x ∈ (Layout.ofText source).blocks,
      Document.SettlesStripped fs options document (LineEnding.detect source) x.1 x.2 := by
  have hb := Layout.standsAfter_of_mem_blocks source
  have hl : Layout.ofText (Document.embed fs options document source).output = _ :=
    Document.ofText_assemble fs options document _ hb (Layout.next?_tail source)
      fun x _ => Document.not_closedByComment_of_strip hstrip x.1 x.2
  rw [Document.output_embed_eq_iff, hending, hl, List.forall_mem_map]
  apply forall₂_congr
  intro x hx
  exact Document.text_fill_result_iff hstrip (hb x hx).indent

/-- The hypotheses hold of a document with a block for each way to settle: a directive in front of
it, a file that begins with no directive, and one that begins with the name of no file. -/
theorem embed_embed_stripped_iff_sample :
    let fs : FileSystem := ⟨[(["a".toList], .file (Text.bytes "// missing\n".toList)),
      (["b".toList], .file (Text.bytes "// a\ny\n".toList))], []⟩
    let options : EmbedOptions := ⟨none, true, .write, ⟨[]⟩⟩
    let document : Path := ⟨"D.md".toList⟩
    let source : Text := ("<!-- embed-directive b -->\n```js\n```\n" ++
      "  ```js\n  // b#L2-L2\n  ```\n```js\n// a\n```\n").toList
    options.stripComment = true ∧
      LineEnding.detect (Document.embed fs options document source).output =
        LineEnding.detect source ∧
      (Document.embed fs options document source).replacedCount = 3 ∧
      ((Document.embed fs options document
          (Document.embed fs options document source).output).output =
        (Document.embed fs options document source).output ↔
      ∀ x ∈ (Layout.ofText source).blocks,
        Document.SettlesStripped fs options document (LineEnding.detect source) x.1 x.2) := by
  intro fs options document source
  have hending : LineEnding.detect (Document.embed fs options document source).output =
      LineEnding.detect source := by decide +kernel
  exact ⟨rfl, hending, by decide +kernel,
    embed_embed_stripped_iff fs options document source rfl hending⟩

/-- A file that begins with a reference to another file leaves that reference in the block. -/
theorem not_embed_embed_stripped : ¬ ∀ (fs : FileSystem) (options : EmbedOptions) (document : Path)
    (source : Text), options.stripComment = true →
      (Document.embed fs options document
          (Document.embed fs options document source).output).output =
        (Document.embed fs options document source).output := by
  intro h
  have h' := h ⟨[(["a".toList], .file (Text.bytes "// b\n".toList)),
      (["b".toList], .file (Text.bytes "y\n".toList))], []⟩ ⟨none, true, .write, ⟨[]⟩⟩
    ⟨"D.md".toList⟩ "```js\n// a\n```\n".toList rfl
  revert h'
  decide +kernel

end FenceSync
