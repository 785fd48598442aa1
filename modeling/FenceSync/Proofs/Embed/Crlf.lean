import FenceSync.Proofs.Directive.Comment
import FenceSync.Proofs.Document.Crlf
import FenceSync.Proofs.Embed.Filled
import FenceSync.Proofs.Snippet.Lines
/-!
# Embedding and CRLF

A document with CRLF for every line feed is embedded like the document with line feeds, and the
result has CRLF for every line feed. The two runs are compared stage by stage: the comments in front
of a block, its directive, the snippet, the written text, the comparison with the old text, the
lines.
-/
namespace FenceSync

namespace Comment

theorem startsWith_withCrlf {p : Text} (hp : p.Inline) (t : Text) :
    Text.startsWith p t.withCrlf = Text.startsWith p t := by
  rw [Text.startsWith, Text.after?_withCrlf hp, Option.isSome_map, Text.startsWith]

theorem inline_xmlOpen : xmlOpen.Inline := by decide

theorem inline_xmlClose : xmlClose.Inline := by decide

/-- A word ends at a blank, and so before a line ending of either kind. -/
theorem wordBefore?_withCrlf {close : Text} (hc : close.Inline) (t : Text) :
    wordBefore? close t.withCrlf = wordBefore? close t := by
  induction t with
  | nil => rfl
  | cons c t ih =>
    have hs := startsWith_withCrlf hc (Text.trimStart (c :: t))
    rw [← Text.trimStart_withCrlf] at hs
    by_cases hn : c = '\n'
    · subst hn
      have hr : Text.isBlank '\r' = true := by decide
      have hl : Text.isBlank '\n' = true := by decide
      rw [Text.withCrlf_newline] at hs ⊢
      rw [wordBefore?, wordBefore?, hs, hr, hl]
      rfl
    · rw [Text.withCrlf_cons_of_ne hn] at hs ⊢
      rw [wordBefore?, wordBefore?, hs, ih]

end Comment

namespace Preceding

theorem afterKeyword?_withCrlf (t : Text) :
    afterKeyword? t.withCrlf = (afterKeyword? t).map Text.withCrlf := by
  rw [afterKeyword?, Text.after?_withCrlf Comment.inline_xmlOpen, afterKeyword?]
  cases Text.after? Comment.xmlOpen t with
  | none => rfl
  | some r =>
    have h := Text.after?_withCrlf (p := keyword) (by decide) (Text.trimStart r)
    rw [← Text.trimStart_withCrlf] at h
    exact h

theorem afterKeyword?_newline (t : Text) : afterKeyword? ('\n' :: t) = none := by
  rw [afterKeyword?, Comment.solid_xmlOpen.after?_cons (by decide), Option.bind_none]

theorem ignoreNextHere?_withCrlf (t : Text) : ignoreNextHere? t.withCrlf = ignoreNextHere? t := by
  rw [ignoreNextHere?, afterKeyword?_withCrlf, ignoreNextHere?]
  rcases afterKeyword? t with - | - | ⟨c, r⟩
  · rfl
  · rfl
  · by_cases hc : c = '\n'
    · subst hc
      rfl
    · have hword := Text.after?_withCrlf (p := ignoreNextWord) (by decide) r
      simp only [Option.map_some, Text.withCrlf_cons_of_ne hc, hword]
      cases Text.after? ignoreNextWord r with
      | none => rfl
      | some r =>
        simp only [Option.map_some, Text.trimStart_withCrlf,
          Comment.startsWith_withCrlf Comment.inline_xmlClose]

theorem overrideHere?_withCrlf (t : Text) : overrideHere? t.withCrlf = overrideHere? t := by
  rw [overrideHere?, afterKeyword?_withCrlf, overrideHere?]
  rcases afterKeyword? t with - | - | ⟨c, r⟩
  · rfl
  · rfl
  · by_cases hc : c = ' '
    · subst hc
      have hdrop := Text.dropWhile_withCrlf (p := (· = ' ')) (by decide) r
      have hcons := Text.withCrlf_cons_of_ne (c := ' ') (by decide) r
      simp only [Option.map_some, hcons, hdrop]
      rcases r.dropWhile (· = ' ') with - | ⟨d, r⟩
      · rfl
      · by_cases hd : d = '\n'
        · subst hd
          rfl
        · simp only [Text.withCrlf_cons_of_ne hd,
            Comment.wordBefore?_withCrlf Comment.inline_xmlClose]
    · by_cases hn : c = '\n'
      · subst hn
        rfl
      · simp only [Option.map_some, Text.withCrlf_cons_of_ne hn]
        grind

/-- The comments in front of a block say the same. -/
theorem scan_withCrlf (gap : Text) : scan gap.withCrlf = scan gap := by
  have hignore : Text.firstMatch? ignoreNextHere? gap.withCrlf = _ :=
    Text.firstMatch?_withCrlf ignoreNextHere?_withCrlf
      (fun t => by rw [ignoreNextHere?, afterKeyword?_newline]) gap
  have hoverride : Text.firstMatch? overrideHere? gap.withCrlf = _ :=
    Text.firstMatch?_withCrlf overrideHere?_withCrlf
      (fun t => by rw [overrideHere?, afterKeyword?_newline]) gap
  rw [scan, hasIgnoreNext, findOverride?, hignore, hoverride]
  rfl

end Preceding

theorem Fence.extension?_withCrlf (f : Fence) : f.withCrlf.extension? = f.extension? := by
  rw [extension?, tag_withCrlf, extension?]

theorem Directive.ofFence_withCrlf (f : Fence) (preceding : Preceding) :
    ofFence .crlf f.withCrlf preceding = ofFence .lf f preceding := by
  rw [ofFence, firstLineReference, f.extension?_withCrlf, f.firstLine?_withCrlf]
  rfl

namespace Snippet

def withCrlf (s : Snippet) : Snippet := ⟨s.body.withCrlf, s.lineCount⟩

theorem bodyOf_crlf {selected : List Text} (h : ∀ l ∈ selected, '\n' ∉ l) :
    bodyOf .crlf selected = (bodyOf .lf selected).withCrlf := by
  have hlines : ∀ l ∈ dedent (minimumIndent selected) selected, '\n' ∉ l := by
    intro l hl hn
    obtain ⟨m, hm, rfl⟩ := List.mem_map.1 hl
    exact h m hm (List.mem_of_mem_drop hn)
  rw [bodyOf, LineEnding.join_crlf hlines, Text.trim_withCrlf, bodyOf]

theorem ofTarget_crlf (fs : FileSystem) (options : EmbedOptions) (document : Path)
    (target : Target) : ofTarget fs options document .crlf target =
      (ofTarget fs options document .lf target).map withCrlf := by
  rw [ofTarget, ofTarget]
  cases fs.exists? (sourcePath options document target.path) with
  | false => rfl
  | true =>
    cases fs.read (sourcePath options document target.path) with
    | error cause => rfl
    | ok content =>
      have hlines : ∀ l ∈ select target.range (lines content), '\n' ∉ l :=
        fun l hl => newline_not_mem_of_mem_lines l (mem_of_mem_select l hl)
      simp only [bodyOf_crlf hlines, Text.contains_withCrlf Fence.inline_delimiter (by decide)]
      split
      · rfl
      · split <;> rfl

end Snippet

namespace Fence

theorem indentLines_withCrlf {i : Text} (hi : '\n' ∉ i) (t : Text) :
    indentLines .crlf i t.withCrlf = (indentLines .lf i t).withCrlf := by
  rw [indentLines, LineEnding.split_withCrlf, LineEnding.join_crlf, indentLines]
  intro l hl hn
  obtain ⟨m, hm, rfl⟩ := List.mem_map.1 hl
  rcases List.mem_append.1 hn with h | h
  · exact hi h
  · exact LineEnding.not_infix_of_mem_split m hm ((List.singleton_infix_iff _ _).2 h)

theorem render_withCrlf {indent tag : Text} (hi : '\n' ∉ indent) (ht : '\n' ∉ tag)
    {comment? : Option Text} (hc : ∀ comment ∈ comment?, '\n' ∉ comment) (body : Text) :
    render .crlf indent tag comment? body.withCrlf =
      (render .lf indent tag comment? body).withCrlf := by
  have hbreak : LineEnding.lf.text.withCrlf = LineEnding.crlf.text := rfl
  cases comment? with
  | none =>
    rw [render, render, ← indentLines_withCrlf hi]
    simp only [Text.withCrlf_append, inline_delimiter.withCrlf_eq, Text.withCrlf_of_not_mem ht,
      hbreak, Text.withCrlf_nil]
  | some comment =>
    have htrim : '\n' ∉ Text.trim comment := fun h =>
      hc comment rfl ((Text.isInfix_trim comment).subset h)
    rw [render, render, ← indentLines_withCrlf hi]
    simp only [Text.withCrlf_append, inline_delimiter.withCrlf_eq, Text.withCrlf_of_not_mem ht,
      Text.withCrlf_of_not_mem htrim, hbreak]

theorem newline_not_mem_firstLine? {f : Fence} {l : Text} (h : f.firstLine? .lf = some l) :
    '\n' ∉ l := by
  obtain ⟨a, m, ms, hs⟩ := firstLine?_eq_some h
  intro hn
  exact LineEnding.not_infix_of_mem_split (e := .lf) l (by rw [hs]; simp)
    ((List.singleton_infix_iff _ _).2 hn)

end Fence

def Outcome.withCrlf : Outcome → Outcome
  | .unchanged reason => .unchanged reason
  | .replaced text lineCount => .replaced text.withCrlf lineCount

/-- Equal texts stay equal, and different ones different. -/
theorem Outcome.ofRendered_withCrlf (rendered present : Text) (n : Nat) :
    ofRendered rendered.withCrlf present.withCrlf n = (ofRendered rendered present n).withCrlf := by
  by_cases h : rendered = present
  · rw [h, ofRendered, ofRendered, if_pos rfl, if_pos rfl]
    rfl
  · have h' : ¬ rendered.withCrlf = present.withCrlf := fun he => h (Text.withCrlf_injective he)
    rw [ofRendered, ofRendered, if_neg h, if_neg h']
    rfl

def Filled.withCrlf (b : Filled) : Filled :=
  ⟨b.gap.withCrlf, b.fence.withCrlf, b.target?, b.outcome.withCrlf⟩

theorem Filled.text_withCrlf (b : Filled) : b.withCrlf.text = b.text.withCrlf := by
  obtain ⟨gap, f, target?, reason | ⟨text, n⟩⟩ := b
  · exact f.raw_withCrlf
  · rfl

def Block.withCrlf (b : Block) : Block := { b with outcome := b.outcome.withCrlf }

/-- A report on the same blocks and the same lines, with all texts in CRLF. -/
def Report.withCrlf (r : Report) : Report := ⟨r.output.withCrlf, r.blocks.map Block.withCrlf⟩

namespace Document

variable (fs : FileSystem) (options : EmbedOptions) (document : Path)

theorem renderWith_withCrlf {f : Fence} (hi : '\n' ∉ f.indent) (directive : Directive)
    (snippet : Snippet) : renderWith options .crlf f.withCrlf directive snippet.withCrlf =
      (renderWith options .lf f directive snippet).withCrlf := by
  have hindent : f.withCrlf.indent = f.indent := Text.withCrlf_of_not_mem hi
  have htag : '\n' ∉ f.tag := fun h => (f.inline_tag _ h).2 rfl
  rw [renderWith, renderWith, f.tag_withCrlf, f.firstLine?_withCrlf, hindent]
  refine Fence.render_withCrlf hi htag (fun comment hc => ?_) snippet.body
  split at hc
  · cases hc
  · obtain rfl := Option.some.inj hc
    cases hl : f.firstLine? .lf with
    | none => exact List.not_mem_nil
    | some l => exact Fence.newline_not_mem_firstLine? hl

theorem fill_withCrlf (gap : Text) {f : Fence} (hi : '\n' ∉ f.indent) :
    fill fs options document .crlf gap.withCrlf f.withCrlf =
      (fill fs options document .lf gap f).withCrlf := by
  rw [fill, Preceding.scan_withCrlf, Directive.ofFence_withCrlf, fill]
  cases Directive.ofFence .lf f (Preceding.scan gap) with
  | error reason => rfl
  | ok directive =>
    simp only [Snippet.ofTarget_crlf]
    cases Snippet.ofTarget fs options document .lf directive.target with
    | error reason => rfl
    | ok snippet =>
      simp only [Except.map, renderWith_withCrlf options hi, f.raw_withCrlf]
      rw [Filled.withCrlf, ← Outcome.ofRendered_withCrlf]
      rfl

theorem assemble_withCrlf (bs : List Filled) (tail : Text) :
    assemble (bs.map Filled.withCrlf) tail.withCrlf = (assemble bs tail).withCrlf := by
  induction bs with
  | nil => rfl
  | cons b bs ih =>
    rw [List.map_cons, assemble_cons, ih, assemble_cons, Filled.text_withCrlf,
      Text.withCrlf_append, Text.withCrlf_append]
    rfl

theorem reportFrom_withCrlf (mode : RunMode) (before written : Text) (bs : List Filled) :
    reportFrom .crlf mode before.withCrlf written.withCrlf (bs.map Filled.withCrlf) =
      (reportFrom .lf mode before written bs).map Block.withCrlf := by
  induction bs generalizing before written with
  | nil => rfl
  | cons b bs ih =>
    have hgap : b.withCrlf.gap = b.gap.withCrlf := rfl
    have hraw : b.withCrlf.fence.raw = b.fence.raw.withCrlf := b.fence.raw_withCrlf
    have hextension : b.withCrlf.fence.extension? = b.fence.extension? :=
      b.fence.extension?_withCrlf
    simp only [List.map_cons, reportFrom, b.text_withCrlf, hgap, hraw, hextension,
      LineEnding.lineCount_withCrlf, LineEnding.breaks_withCrlf, ← Text.withCrlf_append, ih]
    rfl

/-- A document without line feeds has no blocks. -/
theorem embed_of_newline_not_mem {source : Text} (h : '\n' ∉ source) :
    embed fs options document source = ⟨source, []⟩ := by
  have hblocks : (Layout.ofText source).blocks = [] := by
    rw [List.eq_nil_iff_forall_not_mem]
    intro x hx
    have hn := Fence.newline_mem_of_closing? (Layout.standsAfter_of_mem_blocks source x hx).closed
    exact h ((Layout.infix_of_mem_blocks x hx).subset (by simp [Fence.raw, hn]))
  have htext := Layout.text_ofText source
  rw [Layout.text, hblocks] at htext
  have htail : (Layout.ofText source).tail = source := htext
  rw [embed, fillAll, hblocks, htail]
  rfl

/-- What was a line feed everywhere is CRLF everywhere, and all else is the same. -/
theorem embed_withCrlf {source : Text} (h : LineEnding.detect source = .lf) :
    embed fs options document source.withCrlf = (embed fs options document source).withCrlf := by
  by_cases hn : '\n' ∈ source
  · have hfill : fillAll fs options document .crlf (Layout.ofText source.withCrlf) =
        (fillAll fs options document .lf (Layout.ofText source)).map Filled.withCrlf := by
      rw [Layout.ofText_withCrlf, fillAll, fillAll, List.map_map, List.map_map]
      refine List.map_congr_left fun x hx => ?_
      have hindent := (Layout.standsAfter_of_mem_blocks source x hx).indent
      exact fill_withCrlf fs options document x.1
        fun hi => (Fence.inline_of_forall_isIndent hindent _ hi).2 rfl
    have htail : (Layout.ofText source.withCrlf).tail = (Layout.ofText source).tail.withCrlf := by
      rw [Layout.ofText_withCrlf]
    simp only [embed, LineEnding.detect_withCrlf hn, h, hfill, htail, assemble_withCrlf]
    exact congrArg (Report.mk _) (reportFrom_withCrlf options.mode [] [] _)
  · rw [embed_of_newline_not_mem fs options document hn, Text.withCrlf_of_not_mem hn,
      embed_of_newline_not_mem fs options document hn, Report.withCrlf, Text.withCrlf_of_not_mem hn]
    rfl

end Document

/-- Embedding commutes with the change from line feeds to CRLF: the reports agree in all but the
texts, which change in the same way. So such a document never receives a bare line feed. -/
theorem embed_withCrlf_eq (fs : FileSystem) (options : EmbedOptions) (document : Path)
    (source : Text) (h : ¬ LineEnding.crlf.text <:+: source) :
    Document.embed fs options document source.withCrlf =
        (Document.embed fs options document source).withCrlf ∧
      ∀ a b : Text, (Document.embed fs options document source.withCrlf).output = a ++ '\n' :: b →
        a.getLast? = some '\r' := by
  have heq := Document.embed_withCrlf fs options document (LineEnding.detect_eq_lf_iff.2 h)
  refine ⟨heq, fun a b hab => ?_⟩
  rw [heq] at hab
  exact Text.getLast?_of_withCrlf_eq hab

/-- The hypothesis holds of a document with carriage returns of its own, in gaps, tags and lines. -/
theorem embed_withCrlf_eq_sample :
    let fs : FileSystem := ⟨[(["a".toList], .file (Text.bytes "\tx\r\r\n\n\t\ty\r z\n".toList))], []⟩
    let options : EmbedOptions := ⟨none, false, .write, ⟨[]⟩⟩
    let document : Path := ⟨"D.md".toList⟩
    let source : Text := ("\r  \x60\x60\x60js\n\r//\ra#L1-L3\n  \x60\x60\x60\n" ++
      "<!--\n embed-directive a\r-->\n\x60\x60\x60sh\r \n\x60\x60\x60\n").toList
    ¬ LineEnding.crlf.text <:+: source ∧
      (Document.embed fs options document source).replacedCount = 2 ∧
      Document.embed fs options document (Text.withCrlf source) =
        (Document.embed fs options document source).withCrlf ∧
      ∀ a b : Text, (Document.embed fs options document (Text.withCrlf source)).output =
        a ++ '\n' :: b → a.getLast? = some '\r' := by
  intro fs options document source
  have hsource : ¬ LineEnding.crlf.text <:+: source := by decide +kernel
  refine ⟨hsource, by decide +kernel, ?_⟩
  exact embed_withCrlf_eq fs options document source hsource

end FenceSync
