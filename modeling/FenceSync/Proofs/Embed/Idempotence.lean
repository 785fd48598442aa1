import FenceSync.Proofs.Embed.Again
import FenceSync.Proofs.Embed.Endings
/-!
# Idempotence

With the comment lines kept, a second run settles the first one if the document has no whitespace
but spaces, tabs and line endings, and one line ending throughout. Then no comment line can close its
block, and the new document has the line ending of the old one: a CRLF document keeps the line ends
that are written, and into a document without carriage returns a file could bring a CRLF only by a
line that ends in a carriage return.
-/
namespace FenceSync

namespace Fence

/-- When its blanks are an indentation, a line that begins with a delimiter after trimming begins
with one. -/
theorem delimiterLine?_ne_none {l : Text}
    (hl : ∀ c ∈ l, Text.isBlank c = true → Text.isIndent c = true)
    (hd : delimiter <+: Text.trim l) : delimiterLine? l ≠ none := by
  obtain ⟨i, j, hi, -, heq⟩ := Text.exists_eq_append_trim l
  obtain ⟨r, hr⟩ := hd
  have hindent : ∀ c ∈ i, Text.isIndent c = true :=
    fun c hc => hl c (by rw [heq]; simp [hc]) (hi c hc)
  rw [heq, ← hr, List.append_assoc, List.append_assoc, ← List.append_assoc,
    delimiterLine?_append hindent]
  exact Option.some_ne_none _

end Fence

namespace Document

/-- In a document with one line ending, a first line has no character of a line ending. -/
theorem inline_of_firstLine? {source : Text} (hstyle : source.UniformBreaks) {x : Text × Fence}
    (hx : x ∈ (Layout.ofText source).blocks) {l : Text}
    (h : x.2.firstLine? (LineEnding.detect source) = some l) : l.Inline ∧ l <:+: source := by
  generalize he : LineEnding.detect source = e at h
  obtain ⟨a, b, hraw⟩ := Fence.raw_of_firstLine? h
  obtain ⟨p, q, hpq⟩ := Layout.infix_of_mem_blocks x hx
  obtain ⟨_, _, _, hs⟩ := Fence.firstLine?_eq_some h
  have hl : ¬ e.text <:+: l := LineEnding.not_infix_of_mem_split l (by rw [hs]; simp)
  have hsource : source = p ++ x.1 ++ a ++ e.text ++ l ++ e.text ++ (b ++ q) := by
    rw [← hpq, hraw]
    simp only [List.append_assoc]
  have hsub : l <:+: source := by
    rw [hsource, List.append_assoc _ e.text (b ++ q)]
    exact List.infix_append _ _ _
  refine ⟨?_, hsub⟩
  by_cases hr : '\r' ∈ source
  · have hu := hstyle.resolve_left (not_not.2 hr)
    rw [hu.detect_eq hr] at he
    subst he
    rw [hsource] at hu
    exact hu.inline_of_between hl
  · rw [LineEnding.detect_eq_lf_of_not_mem hr] at he
    subst he
    intro c hc
    constructor
    · rintro rfl
      exact hr (hsub.subset hc)
    · rintro rfl
      exact hl ((List.singleton_infix_iff _ _).2 hc)

variable {fs : FileSystem} {options : EmbedOptions} {document : Path}

theorem not_closedByComment {source : Text} (hblank : source.PlainBlanks)
    (hstyle : source.UniformBreaks) {x : Text × Fence} (hx : x ∈ (Layout.ofText source).blocks) :
    ¬ ClosedByComment fs options document (LineEnding.detect source) x.1 x.2 := by
  rintro ⟨directive, snippet, comment, h, hcomment, hd⟩
  have hl := h.firstLine?_eq hcomment
  have hf := Layout.standsAfter_of_mem_blocks source x hx
  obtain ⟨hi, hsub⟩ := inline_of_firstLine? hstyle hx hl
  exact Fence.delimiterLine?_ne_none (hblank.isIndent hsub.subset hi) hd
    (Fence.firstLine?_unclosed hf.indent hf.closed hl).2.2

end Document

namespace Document

variable (fs : FileSystem) (options : EmbedOptions) (document : Path)

def referenced (source : Text) : List Text :=
  (Layout.ofText source).blocks.filterMap fun (gap, f) =>
    match Directive.ofFence (LineEnding.detect source) f (Preceding.scan gap) with
    | .error _ => none
    | .ok directive =>
      (fs.read (Snippet.sourcePath options document directive.target.path)).toOption

variable {fs options document}

/-- Without carriage returns in the document, only a file could bring a CRLF into it. -/
theorem detect_embed_of_not_mem {source : Text} (hr : '\r' ∉ source)
    (hfiles : ∀ content ∈ referenced fs options document source,
      ∀ l ∈ Snippet.lines content, l.getLast? ≠ some '\r') :
    LineEnding.detect (embed fs options document source).output = .lf := by
  have he := LineEnding.detect_eq_lf_of_not_mem hr
  rw [LineEnding.detect_eq_lf_iff, crlf_infix_output_iff fs options document he]
  rintro ⟨x, hx, directive, snippet, content, h, hread, hkeeps⟩
  have hcontent : content ∈ referenced fs options document source := by
    refine List.mem_filterMap.2 ⟨x, hx, ?_⟩
    simp only [he, h.found, hread]
    rfl
  obtain ⟨l, hl, hlast⟩ := hkeeps.exists_mem
  exact hfiles content hcontent l (Snippet.mem_of_mem_select l hl) hlast

end Document

/-- Embedding with the comment lines kept is idempotent, and a second run finds every block that the
first one filled up to date. -/
theorem embed_embed_settled (fs : FileSystem) (options : EmbedOptions) (document : Path)
    (source : Text) (hkeep : options.stripComment = false) (hblank : source.PlainBlanks)
    (hstyle : source.UniformBreaks)
    (hfiles : '\r' ∉ source → ∀ content ∈ Document.referenced fs options document source,
      ∀ l ∈ Snippet.lines content, l.getLast? ≠ some '\r') :
    (Document.embed fs options document source).SettledBy
      (Document.embed fs options document (Document.embed fs options document source).output) := by
  refine Document.settledBy_embed_embed fs options document hkeep
    (fun x hx => Document.not_closedByComment hblank hstyle hx) ?_
  by_cases hr : '\r' ∈ source
  · have he := (hstyle.resolve_left (not_not.2 hr)).detect_eq hr
    rw [he, Document.detect_embed_of_crlf fs options document he]
  · rw [Document.detect_embed_of_not_mem hr (hfiles hr), LineEnding.detect_eq_lf_of_not_mem hr]

/-- The hypotheses hold of a document with a block of each kind, and a file with a carriage return
inside a line. -/
theorem embed_embed_settled_sample :
    let fs : FileSystem := ⟨[(["a".toList], .file (Text.bytes "\tx\r y\n\n\t\tz\n".toList))], []⟩
    let options : EmbedOptions := ⟨none, false, .write, ⟨[]⟩⟩
    let document : Path := ⟨"D.md".toList⟩
    let source : Text := ("  \x60\x60\x60js\n\t //\ta#L1-L2\n  \x60\x60\x60\n" ++
      "<!-- embed-directive a -->\x60\x60\x60sh\n\x60\x60\x60\n" ++
      "\x60\x60\x60c\n// b\n\x60\x60\x60\n").toList
    options.stripComment = false ∧ source.PlainBlanks ∧ source.UniformBreaks ∧
      ('\r' ∉ source → ∀ content ∈ Document.referenced fs options document source,
        ∀ l ∈ Snippet.lines content, l.getLast? ≠ some '\r') ∧
      (Document.embed fs options document source).replacedCount = 2 ∧
      (Document.embed fs options document source).SettledBy (Document.embed fs options document
        (Document.embed fs options document source).output) := by
  intro fs options document source
  have hblank : source.PlainBlanks := by decide +kernel
  have hstyle : source.UniformBreaks := by decide +kernel
  have hfiles : '\r' ∉ source → ∀ content ∈ Document.referenced fs options document source,
      ∀ l ∈ Snippet.lines content, l.getLast? ≠ some '\r' := by decide +kernel
  refine ⟨rfl, hblank, hstyle, hfiles, by decide +kernel, ?_⟩
  exact embed_embed_settled fs options document source rfl hblank hstyle hfiles

end FenceSync
