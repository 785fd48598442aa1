import FenceSync.Proofs.Document.Style
import FenceSync.Proofs.Embed.Lines
import FenceSync.Proofs.Snippet.Lines
/-!
# The line ending of the new document

A CRLF document keeps the line ends that are written, so it stays one. A document with line feeds
only becomes a CRLF document exactly when some block is filled from lines of which one ends in a
carriage return, after the one that belongs to its line ending is off: the line feed that follows
makes a CRLF of it.
-/
namespace FenceSync

namespace Snippet

def HasText (ls : List Text) : Prop := ∃ l ∈ ls, ∃ c ∈ l, Text.isBlank c = false

theorem hasText_iff {ls : List Text} :
    HasText ls ↔ ∃ c ∈ LineEnding.lf.join ls, Text.isBlank c = false := by
  constructor
  · rintro ⟨l, hl, c, hc, hb⟩
    exact ⟨c, (LineEnding.infix_join_of_mem l hl).subset hc, hb⟩
  · rintro ⟨c, hc, hb⟩
    rcases LineEnding.mem_join hc with hc | ⟨l, hl, hc⟩
    · obtain rfl := List.mem_singleton.1 hc
      exact absurd hb (by decide)
    · exact ⟨l, hl, c, hc, hb⟩

/-- One of the lines ends in a carriage return, and stands between texts once the indentation is
off: the line feed that is put behind it makes a CRLF. -/
def KeepsReturn (selected : List Text) : Prop :=
  ∃ before line after,
    dedent (minimumIndent selected) selected = before ++ (line ++ ['\r']) :: after ∧
      HasText (before ++ [line]) ∧ HasText after

/-- Where the joined lines hold a CRLF, a line ends in a carriage return. -/
theorem exists_eq_of_join_eq {ls : List Text} (h : ∀ l ∈ ls, '\n' ∉ l) {u v : Text}
    (ht : LineEnding.lf.join ls = u ++ LineEnding.crlf.text ++ v) :
    ∃ before line, LineEnding.lf.split u = before ++ [line] ∧
      ls = before ++ (line ++ ['\r']) :: LineEnding.lf.split v := by
  have hne : ls ≠ [] := by
    rintro rfl
    simp [LineEnding.join, Text.join, LineEnding.text] at ht
  have hfree : ∀ l ∈ ls, ¬ LineEnding.lf.text <:+: l :=
    fun l hl hn => h l hl (hn.subset List.mem_cons_self)
  obtain ⟨before, line, hsplit⟩ := LineEnding.exists_split_lf_append u
  have hline := hsplit [] List.not_mem_nil
  rw [List.append_nil, List.append_nil] at hline
  refine ⟨before, line, hline, ?_⟩
  have htext : LineEnding.lf.join ls = u ++ ['\r'] ++ LineEnding.lf.text ++ v := by
    rw [ht]
    simp [LineEnding.text]
  rw [← LineEnding.split_join hne hfree, htext, LineEnding.split_append_break,
    hsplit _ (by decide), List.append_assoc, List.singleton_append]

theorem crlf_infix_trim_join_iff {ls : List Text} (h : ∀ l ∈ ls, '\n' ∉ l) :
    LineEnding.crlf.text <:+: Text.trim (LineEnding.lf.join ls) ↔ ∃ before line after,
      ls = before ++ (line ++ ['\r']) :: after ∧ HasText (before ++ [line]) ∧ HasText after := by
  constructor
  · rintro ⟨a, b, hab⟩
    obtain ⟨i, j, -, -, ht⟩ := Text.exists_eq_append_trim (LineEnding.lf.join ls)
    have htext : LineEnding.lf.join ls = (i ++ a) ++ LineEnding.crlf.text ++ (b ++ j) := by
      rw [ht, ← hab]
      simp only [List.append_assoc]
    obtain ⟨before, line, hline, hls⟩ := exists_eq_of_join_eq h htext
    refine ⟨before, line, _, hls, ?_, ?_⟩
    · rw [← hline, hasText_iff, LineEnding.join_split]
      have hhead := Text.head?_trim (t := LineEnding.lf.join ls)
      rw [← hab] at hhead
      cases a with
      | nil => exact absurd (hhead '\r' rfl) (by decide)
      | cons c a => exact ⟨c, by simp, hhead c rfl⟩
    · rw [hasText_iff, LineEnding.join_split]
      have hlast := Text.getLast?_trim (t := LineEnding.lf.join ls)
      rw [← hab] at hlast
      rcases List.eq_nil_or_concat b with rfl | ⟨b, c, rfl⟩
      · exact absurd (hlast '\n' (by simp [LineEnding.text])) (by decide)
      · exact ⟨c, by simp, hlast c (by simp)⟩
  · rintro ⟨before, line, after, rfl, hbefore, hafter⟩
    have hne : after ≠ [] := by
      rintro rfl
      obtain ⟨l, hl, -⟩ := hafter
      cases hl
    have htext : LineEnding.lf.join (before ++ (line ++ ['\r']) :: after) =
        LineEnding.lf.join (before ++ [line]) ++
          (LineEnding.crlf.text ++ LineEnding.lf.join after) := by
      rw [List.append_cons, LineEnding.join_append _ (by simp) hne,
        LineEnding.join_append_singleton]
      simp [LineEnding.text]
    rw [hasText_iff] at hbefore hafter
    rw [htext, Text.trim, Text.trimStart_append_of_text hbefore, ← List.append_assoc,
      Text.trimEnd_append_of_text hafter]
    exact List.infix_append _ _ _

/-- The body of a snippet holds a CRLF only by a line of the file. -/
theorem crlf_infix_bodyOf_iff {selected : List Text} (h : ∀ l ∈ selected, '\n' ∉ l) :
    LineEnding.crlf.text <:+: bodyOf .lf selected ↔ KeepsReturn selected := by
  refine crlf_infix_trim_join_iff fun l hl => ?_
  obtain ⟨m, hm, rfl⟩ := List.mem_map.1 hl
  exact fun hn => h m hm (List.mem_of_mem_drop hn)

/-- A line that keeps a carriage return has it in the file. -/
theorem KeepsReturn.exists_mem {selected : List Text} (h : KeepsReturn selected) :
    ∃ l ∈ selected, l.getLast? = some '\r' := by
  obtain ⟨before, line, after, hls, -, -⟩ := h
  have hmem : line ++ ['\r'] ∈ dedent (minimumIndent selected) selected := by
    rw [hls]
    simp
  obtain ⟨m, hm, hdrop⟩ := List.mem_map.1 hmem
  refine ⟨m, hm, ?_⟩
  obtain ⟨r, hr⟩ : line ++ ['\r'] <:+ m := hdrop ▸ List.drop_suffix _ m
  rw [← hr]
  simp

end Snippet

namespace Fence

theorem indentLines_append_of_not_mem {u : Text} (hu : '\n' ∉ u) (i t : Text) :
    indentLines .lf i (t ++ u) = indentLines .lf i t ++ u := by
  obtain ⟨ls, l, h⟩ := LineEnding.exists_split_lf_append t
  have hline := h [] List.not_mem_nil
  rw [List.append_nil, List.append_nil] at hline
  rw [indentLines, indentLines, h u hu, hline, List.map_append, List.map_append,
    List.map_singleton, List.map_singleton, ← List.append_assoc i l u,
    LineEnding.join_append_singleton]

theorem crlf_infix_indentLines {t : Text} (h : LineEnding.crlf.text <:+: t) (i : Text) :
    LineEnding.crlf.text <:+: indentLines .lf i t := by
  obtain ⟨a, b, rfl⟩ := h
  have htext : a ++ LineEnding.crlf.text ++ b = a ++ ['\r'] ++ LineEnding.lf.text ++ b := by
    simp [LineEnding.text]
  rw [htext, indentLines_append_break, indentLines_append_of_not_mem (by decide)]
  exact ⟨indentLines .lf i a, indentLines .lf i b, by simp [LineEnding.text]⟩

theorem freeOfCrlf_indentLines {i t : Text} (hi : i.FreeOfCrlf) (ht : t.FreeOfCrlf) :
    (indentLines .lf i t).FreeOfCrlf := by
  refine Text.FreeOfCrlf.join fun l hl => ?_
  obtain ⟨m, hm, rfl⟩ := List.mem_map.1 hl
  exact hi.append (ht.of_mem_split m hm)

theorem infix_raw_written (e : LineEnding) (f : Fence) (comment? : Option Text) (body : Text) :
    e.text <:+: (f.written e comment? body).raw := by
  rw [raw, written]
  apply List.infix_append_of_infix_right
  rw [List.append_assoc _ e.text (f.indent ++ delimiter)]
  exact List.infix_append' _ _ _

theorem indentLines_infix_raw_written (e : LineEnding) (f : Fence) (comment? : Option Text)
    (body : Text) : indentLines e f.indent body <:+: (f.written e comment? body).raw := by
  rw [raw, written]
  apply List.infix_append_of_infix_right
  rw [List.append_assoc _ e.text (f.indent ++ delimiter)]
  exact List.infix_append _ _ _

section

variable {f : Fence} {comment? : Option Text} {body : Text}
  (hi : ∀ c ∈ f.indent, Text.isIndent c = true)
  (hc : ∀ comment ∈ comment?, ¬ LineEnding.crlf.text <:+: comment)

include hi hc

theorem freeOfCrlf_written (hb : body.FreeOfCrlf) :
    (f.written .lf comment? body).raw.FreeOfCrlf := by
  have hindent : f.indent.FreeOfCrlf :=
    .of_not_mem fun h => (inline_of_forall_isIndent hi _ h).1 rfl
  have htag : f.tag.FreeOfCrlf := .of_not_mem fun h => (f.inline_tag _ h).1 rfl
  have hdelimiter : delimiter.FreeOfCrlf := .of_not_mem (by decide)
  have hbreak : LineEnding.lf.text.FreeOfCrlf := .of_not_mem (by decide)
  have hcomment : (commentLines .lf f.indent comment?).FreeOfCrlf := by
    cases comment? with
    | none => exact .of_not_mem List.not_mem_nil
    | some comment =>
      have hline := freeOfCrlf_indentLines hindent (Text.FreeOfCrlf.trim (hc comment rfl))
      exact ((hbreak.append hline).append hbreak).append hindent
  have hinside : (f.written .lf comment? body).inside.FreeOfCrlf :=
    ((((htag.append hcomment).append hbreak).append (freeOfCrlf_indentLines hindent hb)).append
      hbreak).append (hindent.append hdelimiter)
  exact (hindent.append hdelimiter).append hinside

/-- Of what is written, only the body can hold a CRLF. -/
theorem crlf_infix_raw_written_iff (hb : body.getLast? ≠ some '\r') :
    LineEnding.crlf.text <:+: (f.written .lf comment? body).raw ↔
      LineEnding.crlf.text <:+: body := by
  constructor
  · intro h
    by_contra hn
    exact (freeOfCrlf_written hi hc ⟨hn, hb⟩).no_crlf h
  · intro h
    exact (crlf_infix_indentLines h f.indent).trans
      (indentLines_infix_raw_written .lf f comment? body)

end

end Fence

namespace Document

/-- In a document with line feeds only, the block is filled from lines of which one keeps a carriage
return at its end. -/
def BringsCrlf (fs : FileSystem) (options : EmbedOptions) (document : Path) (gap : Text)
    (f : Fence) : Prop :=
  ∃ directive snippet content, Supplied fs options document .lf gap f directive snippet ∧
    fs.read (Snippet.sourcePath options document directive.target.path) = .ok content ∧
    Snippet.KeepsReturn (Snippet.select directive.target.range (Snippet.lines content))

variable {fs : FileSystem} {options : EmbedOptions} {document : Path} {gap : Text} {f : Fence}
  {directive : Directive} {snippet : Snippet}

theorem Supplied.crlf_infix_body_iff
    (h : Supplied fs options document .lf gap f directive snippet) :
    LineEnding.crlf.text <:+: snippet.body ↔ BringsCrlf fs options document gap f := by
  have hlines (range : Option LineRange) (content : Text) :
      ∀ l ∈ Snippet.select range (Snippet.lines content), '\n' ∉ l :=
    fun l hl => Snippet.newline_not_mem_of_mem_lines l (Snippet.mem_of_mem_select l hl)
  constructor
  · intro hi
    obtain ⟨-, content, hread, -, hs⟩ := Snippet.ofTarget_eq_ok_iff.1 h.loaded
    rw [hs, Snippet.crlf_infix_bodyOf_iff (hlines _ _)] at hi
    exact ⟨directive, snippet, content, h, hread, hi⟩
  · rintro ⟨directive', snippet', content, h', hread, hi⟩
    rw [h.snippet_eq h']
    obtain ⟨-, content', hread', -, hs⟩ := Snippet.ofTarget_eq_ok_iff.1 h'.loaded
    rw [hread] at hread'
    cases hread'
    rw [hs, Snippet.crlf_infix_bodyOf_iff (hlines _ _)]
    exact hi

theorem Supplied.getLast?_body_ne {e : LineEnding}
    (h : Supplied fs options document e gap f directive snippet) :
    snippet.body.getLast? ≠ some '\r' := by
  obtain ⟨-, content, -, -, hs⟩ := Snippet.ofTarget_eq_ok_iff.1 h.loaded
  rw [hs]
  intro hl
  exact absurd (Text.getLast?_trim _ hl) (by decide)

theorem crlf_infix_text_fill_iff (hf : f.StandsAfter gap)
    (hraw : ¬ LineEnding.crlf.text <:+: f.raw) :
    LineEnding.crlf.text <:+: (fill fs options document .lf gap f).text ↔
      BringsCrlf fs options document gap f := by
  by_cases hsupplied : ∃ directive snippet, Supplied fs options document .lf gap f directive snippet
  · obtain ⟨directive, snippet, h⟩ := hsupplied
    rw [text_fill_of_supplied h,
      Fence.crlf_infix_raw_written_iff hf.indent (fun comment hcomment hi => ?_) h.getLast?_body_ne,
      h.crlf_infix_body_iff]
    obtain ⟨a, b, hab⟩ := Fence.raw_of_firstLine? (h.firstLine?_eq hcomment)
    refine hraw (hi.trans ?_)
    rw [hab, List.append_assoc _ _ b]
    exact List.infix_append _ _ _
  · rcases fill_cases fs options document .lf gap f with ⟨_, _, h⟩ | h
    · rw [h]
      refine ⟨fun hi => absurd hi hraw, ?_⟩
      rintro ⟨directive, snippet, -, h', -⟩
      exact absurd ⟨directive, snippet, h'⟩ hsupplied
    · exact absurd h hsupplied

/-- No line ending reaches over the borders of the blocks. -/
theorem crlf_infix_assemble_iff {bs : List Filled} (hb : ∀ b ∈ bs, b.text.Bounded) (tail : Text) :
    LineEnding.crlf.text <:+: assemble bs tail ↔
      (∃ b ∈ bs, LineEnding.crlf.text <:+: b.gap ∨ LineEnding.crlf.text <:+: b.text) ∨
        LineEnding.crlf.text <:+: tail := by
  induction bs with
  | nil => simp [assemble]
  | cons b bs ih =>
    rw [List.forall_mem_cons] at hb
    rw [assemble_cons, Text.crlf_infix_append_iff (.of_getLast? (hb.1.getLast?_append_ne b.gap)),
      Text.crlf_infix_append_iff (hb.1.apart_left b.gap), ih hb.2, List.exists_mem_cons_iff]
    simp only [or_assoc]

variable (fs options document)

theorem crlf_infix_output_iff {source : Text} (he : LineEnding.detect source = .lf) :
    LineEnding.crlf.text <:+: (embed fs options document source).output ↔
      ∃ x ∈ (Layout.ofText source).blocks, BringsCrlf fs options document x.1 x.2 := by
  have hsource := LineEnding.detect_eq_lf_iff.1 he
  have hstands := Layout.standsAfter_of_mem_blocks source
  have hinside := Layout.infix_of_mem_blocks (t := source)
  have htail : ¬ LineEnding.crlf.text <:+: (Layout.ofText source).tail := by
    intro hi
    rw [← Layout.text_ofText source] at hsource
    exact hsource (List.infix_append_of_infix_right hi)
  have hbounded : ∀ b ∈ fillAll fs options document .lf (Layout.ofText source),
      b.text.Bounded :=
    List.forall_mem_map.2 fun x hx => bounded_text_fill fs options document .lf (hstands x hx)
  rw [embed, he, crlf_infix_assemble_iff hbounded, or_iff_left htail, fillAll]
  simp only [List.mem_map, exists_exists_and_eq_and]
  refine exists_congr fun x => and_congr_right fun hx => ?_
  have hgap : ¬ LineEnding.crlf.text <:+: x.1 := fun hi =>
    hsource ((hi.trans List.infix_append_left).trans (hinside x hx))
  have hraw : ¬ LineEnding.crlf.text <:+: x.2.raw := fun hi =>
    hsource ((List.infix_append_of_infix_right hi).trans (hinside x hx))
  rw [gap_fill, or_iff_right hgap, crlf_infix_text_fill_iff (hstands x hx) hraw]

/-- A replaced block has line ends of the document, so a CRLF document stays one. -/
theorem detect_embed_of_crlf {source : Text} (he : LineEnding.detect source = .crlf) :
    LineEnding.detect (embed fs options document source).output = .crlf := by
  by_cases hout : (embed fs options document source).output = source
  · rw [hout, he]
  · rw [output_embed_eq_iff, he] at hout
    simp only [not_forall] at hout
    obtain ⟨x, hx, hne⟩ := hout
    rcases fill_cases fs options document .crlf x.1 x.2 with ⟨_, _, h⟩ | ⟨directive, snippet, h⟩
    · rw [h] at hne
      exact absurd rfl hne
    · have hbreak : LineEnding.crlf.text <:+: (fill fs options document .crlf x.1 x.2).text := by
        rw [text_fill_of_supplied h]
        exact Fence.infix_raw_written _ _ _ _
      rw [LineEnding.detect_eq_crlf_iff, embed, he]
      apply List.infix_append_of_infix_left
      rw [List.flatMap_def]
      refine List.IsInfix.trans ?_ (List.infix_of_mem_flatten
        (List.mem_map.2 ⟨_, List.mem_map.2 ⟨x, hx, rfl⟩, rfl⟩))
      exact List.infix_append_of_infix_right hbreak

end Document

/-- Embedding keeps the line ending of a document, unless a file brings a CRLF into a document that
has none. -/
theorem detect_embed_eq_iff (fs : FileSystem) (options : EmbedOptions) (document : Path)
    (source : Text) :
    LineEnding.detect (Document.embed fs options document source).output =
        LineEnding.detect source ↔
      LineEnding.detect source = .crlf ∨ ∀ x ∈ (Layout.ofText source).blocks,
        ¬ Document.BringsCrlf fs options document x.1 x.2 := by
  cases he : LineEnding.detect source with
  | crlf => simp [Document.detect_embed_of_crlf fs options document he]
  | lf =>
    rw [LineEnding.detect_eq_lf_iff, Document.crlf_infix_output_iff fs options document he]
    simp

/-- A line with two carriage returns at its end loses one of them, and the other one meets the line
feed that is put behind the line. -/
theorem not_detect_embed_eq : ¬ ∀ (fs : FileSystem) (options : EmbedOptions) (document : Path)
    (source : Text), LineEnding.detect (Document.embed fs options document source).output =
      LineEnding.detect source := by
  intro h
  have h' := h ⟨[(["a".toList], .file (Text.bytes "x\r\r\ny\n".toList))], []⟩ ⟨none, false, .write, ⟨[]⟩⟩
    ⟨"D.md".toList⟩ "```js\n// a\n```\n".toList
  revert h'
  decide +kernel

end FenceSync
