import FenceSync.Proofs.Directive.Comment
import FenceSync.Proofs.Document.Boundaries
import FenceSync.Proofs.Document.Breaks
import FenceSync.Proofs.Text.Trim
import FenceSync.Embed.Render
/-!
# Written blocks

A written block is a block again, with the indentation and the tag of the old one, unless its comment
line begins with a delimiter: then the block ends there. Its first line is the trimmed comment line
behind the indentation.
-/
namespace FenceSync.Fence

theorem not_delimiter_infix_of_forall_isIndent {i : Text} (hi : ∀ c ∈ i, Text.isIndent c = true) :
    ¬ delimiter <:+: i := by
  intro h
  have hm : '\x60' ∈ i := h.subset (by decide)
  exact absurd (hi _ hm) (by decide)

theorem closing?_append_of_inline {u : Text} (hu : u.Inline) (t : Text) :
    closing? (u ++ t) = (closing? t).map fun (i, r) => (u ++ i, r) := by
  induction u with
  | nil =>
    rw [List.nil_append]
    cases closing? t <;> rfl
  | cons c u ih =>
    rw [List.cons_append, closing?_cons_of_ne (hu c List.mem_cons_self).2,
      ih fun a ha => hu a (List.mem_cons_of_mem _ ha), Option.map_map]
    rfl

theorem closing?_eq_none_of_inline {u : Text} (hu : u.Inline) : closing? u = none := by
  have h := closing?_append_of_inline hu []
  rwa [List.append_nil] at h

/-- A line of text that does not begin with an indentation begins with a delimiter or not. -/
theorem delimiterLine?_indent_append {i t : Text} (hi : ∀ c ∈ i, Text.isIndent c = true)
    (ht : ∀ c ∈ t.head?, Text.isIndent c = false) (hd : ¬ delimiter <+: t) :
    delimiterLine? (i ++ t) = none := by
  have h : t.dropWhile Text.isIndent = t := by
    cases t with
    | nil => rfl
    | cons c t => exact List.dropWhile_cons_of_neg (by simp [ht c rfl])
  rw [delimiterLine?, List.dropWhile_append_of_pos hi, h, Text.after?_eq_none_iff.2 hd,
    Option.map_none]

theorem indentLines_append_break (e : LineEnding) (i a b : Text) :
    indentLines e i (a ++ e.text ++ b) = indentLines e i a ++ e.text ++ indentLines e i b := by
  rw [indentLines, LineEnding.split_append_break, List.map_append, LineEnding.join_append]
  · rfl
  · simpa using LineEnding.split_ne_nil e a
  · simpa using LineEnding.split_ne_nil e b

theorem indentLines_of_no_break {e : LineEnding} {t : Text} (ht : ¬ e.text <:+: t) (i : Text) :
    indentLines e i t = i ++ t := by
  rw [indentLines, LineEnding.split_eq_singleton ht, List.map_singleton, LineEnding.join_singleton]

theorem split_indentLines {i : Text} (hi : i.Inline) (e : LineEnding) (t : Text) :
    e.split (indentLines e i t) = (e.split t).map (i ++ ·) := by
  have hchars : ∀ c ∈ i, c ∉ e.text := by
    intro c hc
    have := hi c hc
    cases e <;> simp [LineEnding.text, this]
  apply LineEnding.split_join
  · simpa using LineEnding.split_ne_nil e t
  · intro l hl
    obtain ⟨m, hm, rfl⟩ := List.mem_map.1 hl
    rw [Text.infix_append_iff_of_not_mem (by cases e <;> decide) hchars]
    exact LineEnding.not_infix_of_mem_split m hm

theorem indentLines_injective {i : Text} (hi : i.Inline) (e : LineEnding) :
    Function.Injective (indentLines e i) := by
  intro s t h
  have hlines := congrArg e.split h
  rw [split_indentLines hi, split_indentLines hi,
    List.map_inj_right fun _ _ => List.append_cancel_left] at hlines
  rw [← LineEnding.join_split e s, hlines, LineEnding.join_split]

theorem not_delimiter_infix_join {e : LineEnding} {ls : List Text}
    (h : ∀ l ∈ ls, ¬ delimiter <:+: l) : ¬ delimiter <:+: e.join ls := by
  induction ls with
  | nil =>
    intro hd
    exact absurd (hd.subset (List.mem_cons_self : '\x60' ∈ delimiter)) List.not_mem_nil
  | cons l ls ih =>
    by_cases hl : ls = []
    · rw [hl, LineEnding.join_singleton]
      exact h l List.mem_cons_self
    · rw [LineEnding.join_cons e l hl,
        LineEnding.infix_append_break_iff (by decide) inline_delimiter, not_or]
      exact ⟨h l List.mem_cons_self, ih fun m hm => h m (List.mem_cons_of_mem _ hm)⟩

theorem not_delimiter_infix_indentLines {e : LineEnding} {i t : Text}
    (hi : ∀ c ∈ i, Text.isIndent c = true) (ht : ¬ delimiter <:+: t) :
    ¬ delimiter <:+: indentLines e i t := by
  refine not_delimiter_infix_join fun l hl => ?_
  obtain ⟨m, hm, rfl⟩ := List.mem_map.1 hl
  have hn : ∀ c ∈ i, c ∉ delimiter := by
    intro c hc hd
    have h := isIndent_of_mem_delimiter c hd
    rw [hi c hc] at h
    cases h
  rw [Text.infix_append_iff_of_not_mem (by decide) hn]
  exact fun h => ht (h.trans (LineEnding.infix_of_mem_split m hm))

def commentLines (e : LineEnding) (indent : Text) : Option Text → Text
  | none => []
  | some comment => e.text ++ indentLines e indent (Text.trim comment) ++ e.text ++ indent

def written (e : LineEnding) (f : Fence) (comment? : Option Text) (body : Text) : Fence where
  indent := f.indent
  inside := f.tag ++ commentLines e f.indent comment? ++ e.text ++ indentLines e f.indent body ++
    e.text ++ (f.indent ++ delimiter)

theorem raw_written (e : LineEnding) (f : Fence) (comment? : Option Text) (body : Text) :
    (written e f comment? body).raw = render e f.indent f.tag comment? body := by
  have hopen : indentLines e f.indent (delimiter ++ f.tag) = f.indent ++ (delimiter ++ f.tag) :=
    indentLines_of_no_break ((inline_delimiter.append f.inline_tag).no_break e) _
  have hclose : indentLines e f.indent delimiter = f.indent ++ delimiter :=
    indentLines_of_no_break (inline_delimiter.no_break e) _
  cases comment? with
  | none =>
    rw [render, List.append_nil, indentLines_append_break, indentLines_append_break, hopen, hclose]
    simp [raw, written, commentLines]
  | some comment =>
    have hempty : indentLines e f.indent [] = f.indent := by
      rw [indentLines_of_no_break (by cases e <;> decide), List.append_nil]
    have hlines : delimiter ++ f.tag ++ e.text ++ (Text.trim comment ++ e.text ++ e.text) ++ body =
        delimiter ++ f.tag ++ e.text ++ Text.trim comment ++ e.text ++ [] ++ e.text ++ body := by
      simp
    rw [render, hlines, indentLines_append_break, indentLines_append_break,
      indentLines_append_break, indentLines_append_break, hopen, hclose, hempty]
    simp [raw, written, commentLines]

theorem takeWhile_append_break {t : Text} (ht : t.Inline) (e : LineEnding) (s : Text) :
    (t ++ e.text ++ s).takeWhile (fun c => c != '\r' && c != '\n') = t := by
  rw [List.append_assoc, List.takeWhile_append_of_pos (by simpa [Text.Inline] using ht)]
  cases e <;> simp [LineEnding.text]

theorem tag_written (e : LineEnding) (f : Fence) (comment? : Option Text) (body : Text) :
    (written e f comment? body).tag = f.tag := by
  cases comment? with
  | none =>
    rw [tag, written, commentLines, List.append_nil, List.append_assoc, List.append_assoc]
    exact takeWhile_append_break f.inline_tag e _
  | some comment =>
    rw [tag, written, commentLines]
    simp only [List.append_assoc]
    rw [← List.append_assoc]
    exact takeWhile_append_break f.inline_tag e _

/-- A comment line that can stand in a block: nothing in it closes the block. -/
structure OpenComment (e : LineEnding) (comment : Text) : Prop where
  single : ¬ e.text <:+: comment
  unclosed : closing? comment = none
  no_delimiter : ¬ delimiter <+: Text.trim comment

theorem head?_trim_isIndent {t : Text} : ∀ c ∈ (Text.trim t).head?, Text.isIndent c = false := by
  intro c hc
  have h := Text.head?_trim c hc
  rw [Bool.eq_false_iff] at h ⊢
  exact fun hi => h (Text.isBlank_of_isIndent hi)

section

variable {e : LineEnding} {f : Fence} {comment? : Option Text} {body : Text}
  (hi : ∀ c ∈ f.indent, Text.isIndent c = true)

include hi

theorem closing?_commentLines (hc : ∀ comment ∈ comment?, OpenComment e comment) :
    closing? (f.tag ++ commentLines e f.indent comment?) = none := by
  have htag : closing? f.tag = none := closing?_eq_none_of_inline f.inline_tag
  cases comment? with
  | none => rwa [commentLines, List.append_nil]
  | some comment =>
    obtain ⟨hs, hu, hd⟩ := hc comment rfl
    have hline : closing? (f.indent ++ Text.trim comment) = none := by
      rw [closing?_append_of_inline (inline_of_forall_isIndent hi),
        closing?_eq_none_of_isInfix hu (Text.isInfix_trim comment)]
      rfl
    have hnone := not_delimiter_infix_of_forall_isIndent hi
    rw [commentLines, indentLines_of_no_break fun h => hs (h.trans (Text.isInfix_trim comment)),
      ← List.append_assoc, ← List.append_assoc, ← List.append_assoc]
    refine closing?_append_break_eq_none ?_ e (delimiterLine?_eq_none_of_no_delimiter hnone)
      (closing?_eq_none_of_no_delimiter hnone)
    exact closing?_append_break_eq_none htag e
      (delimiterLine?_indent_append hi head?_trim_isIndent hd) hline

/-- What is written can be read as a block again. -/
theorem closed_written (hb : ¬ delimiter <:+: body)
    (hc : ∀ comment ∈ comment?, OpenComment e comment) :
    Closed (written e f comment? body).inside := by
  have hbody := not_delimiter_infix_indentLines (e := e) hi hb
  have hlast : delimiterLine? (f.indent ++ delimiter) = some (f.indent ++ delimiter, []) := by
    have h := delimiterLine?_append hi []
    rwa [List.append_nil] at h
  refine closing?_append_break_of_some ?_ e hlast
  exact closing?_append_break_eq_none (closing?_commentLines hi hc) e
    (delimiterLine?_eq_none_of_no_delimiter hbody) (closing?_eq_none_of_no_delimiter hbody)

/-- The first line of the new block is the comment line again. -/
theorem firstLine?_written {comment : Text} (hs : ¬ e.text <:+: comment) :
    (written e f (some comment) body).firstLine? e = some (f.indent ++ Text.trim comment) := by
  have hinline := inline_of_forall_isIndent hi
  have hhead : ¬ e.text <:+: f.indent ++ delimiter ++ f.tag :=
    ((hinline.append inline_delimiter).append f.inline_tag).no_break e
  have htrim : ¬ e.text <:+: Text.trim comment :=
    fun h => hs (h.trans (Text.isInfix_trim comment))
  have hline : e.split (f.indent ++ Text.trim comment) = [f.indent ++ Text.trim comment] := by
    rw [LineEnding.split_append_of_inline hinline, LineEnding.split_eq_singleton htrim]
    rfl
  let rest := f.indent ++ e.text ++ indentLines e f.indent body ++ e.text ++ (f.indent ++ delimiter)
  have hraw : (written e f (some comment) body).raw = f.indent ++ delimiter ++ f.tag ++ e.text ++
      (f.indent ++ Text.trim comment) ++ e.text ++ rest := by
    simp [raw, written, commentLines, indentLines_of_no_break htrim, rest]
  have hsplit : e.split (written e f (some comment) body).raw =
      (f.indent ++ delimiter ++ f.tag) :: (f.indent ++ Text.trim comment) :: e.split rest := by
    rw [hraw, LineEnding.split_append_break, LineEnding.split_append_break, hline,
      LineEnding.split_eq_singleton hhead]
    rfl
  obtain ⟨m, ms, hm⟩ := List.exists_cons_of_ne_nil (LineEnding.split_ne_nil e rest)
  rw [firstLine?, hsplit, hm]

end

theorem firstLine?_eq_some {e : LineEnding} {f : Fence} {l : Text}
    (h : f.firstLine? e = some l) : ∃ a m ms, e.split f.raw = a :: l :: m :: ms := by
  rw [firstLine?] at h
  split at h
  · next a l' m ms hs =>
    cases h
    exact ⟨a, m, ms, hs⟩
  · cases h

/-- The first line stands between two breaks. -/
theorem raw_of_firstLine? {e : LineEnding} {f : Fence} {l : Text} (h : f.firstLine? e = some l) :
    ∃ a b : Text, f.raw = a ++ e.text ++ l ++ e.text ++ b := by
  obtain ⟨a, m, ms, hs⟩ := firstLine?_eq_some h
  refine ⟨a, e.join (m :: ms), ?_⟩
  rw [← LineEnding.join_split e f.raw, hs, LineEnding.join_cons e a (by simp),
    LineEnding.join_cons e l (by simp)]
  simp only [List.append_assoc]

theorem Closed.closing?_eq_none {a b : Text} (h : Closed (a ++ b)) (hb : b ≠ []) :
    closing? a = none := by
  rw [Option.eq_none_iff_forall_ne_some]
  rintro ⟨i, r⟩ ha
  have h' := Fence.closing?_append ha b
  rw [Closed] at h
  rw [h, Option.some.injEq, Prod.mk.injEq] at h'
  exact hb (List.append_eq_nil_iff.1 h'.2.symm).2

/-- Between two line breaks of a block there is neither a break nor a closing delimiter. -/
theorem firstLine?_unclosed {e : LineEnding} {f : Fence} {l : Text}
    (hi : ∀ c ∈ f.indent, Text.isIndent c = true) (hf : Closed f.inside)
    (h : f.firstLine? e = some l) :
    ¬ e.text <:+: l ∧ closing? l = none ∧ delimiterLine? l = none := by
  obtain ⟨a, m, ms, hs⟩ := firstLine?_eq_some h
  have hl : ¬ e.text <:+: l := LineEnding.not_infix_of_mem_split l (by rw [hs]; simp)
  have hopen : (f.indent ++ delimiter).Inline :=
    (inline_of_forall_isIndent hi).append inline_delimiter
  rw [raw, LineEnding.split_append_of_inline hopen] at hs
  obtain ⟨x, xs, hx⟩ := List.exists_cons_of_ne_nil (LineEnding.split_ne_nil e f.inside)
  rw [hx, List.modifyHead_cons, List.cons.injEq] at hs
  have hin : f.inside = x ++ e.text ++ l ++ (e.text ++ e.join (m :: ms)) := by
    rw [← LineEnding.join_split e f.inside, hx, hs.2, LineEnding.join_cons e x (by simp),
      LineEnding.join_cons e l (by simp)]
    simp only [List.append_assoc]
  have hrest : e.text ++ e.join (m :: ms) ≠ [] := by cases e <;> simp [LineEnding.text]
  rw [hin] at hf
  have hnone : closing? (x ++ e.text ++ l) = none := hf.closing?_eq_none hrest
  have hx' : closing? x = none :=
    closing?_eq_none_of_isInfix hnone (by rw [List.append_assoc]; exact List.infix_append_left)
  refine ⟨hl, closing?_eq_none_of_isInfix hnone List.infix_append_right, ?_⟩
  rw [Option.eq_none_iff_forall_ne_some]
  rintro ⟨d, r⟩ hd
  rw [closing?_append_break_of_some hx' e hd] at hnone
  cases hnone

/-- A block up to a delimiter on its second line. -/
def cutShort (e : LineEnding) (f : Fence) : Fence where
  indent := f.indent
  inside := f.tag ++ e.text ++ (f.indent ++ delimiter)

theorem closed_cutShort {e : LineEnding} {f : Fence} (hi : ∀ c ∈ f.indent, Text.isIndent c = true) :
    Closed (f.cutShort e).inside := by
  have h := delimiterLine?_append hi []
  rw [List.append_nil] at h
  exact closing?_append_break_of_some (closing?_eq_none_of_inline f.inline_tag) e h

/-- A block of two lines has no first line of content. -/
theorem firstLine?_cutShort {e : LineEnding} {f : Fence}
    (hi : ∀ c ∈ f.indent, Text.isIndent c = true) : (f.cutShort e).firstLine? e = none := by
  have hinline := inline_of_forall_isIndent hi
  have hraw : (f.cutShort e).raw = f.indent ++ delimiter ++ f.tag ++ e.text ++
      (f.indent ++ delimiter) := by
    simp [raw, cutShort]
  rw [firstLine?, hraw, LineEnding.split_append_break,
    LineEnding.split_eq_singleton
      (((hinline.append inline_delimiter).append f.inline_tag).no_break e),
    LineEnding.split_eq_singleton ((hinline.append inline_delimiter).no_break e)]
  rfl

/-- A block whose comment line begins with a delimiter is cut short by it. -/
theorem raw_written_of_delimiter {e : LineEnding} {f : Fence} {comment body : Text}
    (hs : ¬ e.text <:+: comment) (hd : delimiter <+: Text.trim comment) :
    ∃ w ≠ [], (written e f (some comment) body).raw = (f.cutShort e).raw ++ w := by
  obtain ⟨t, ht⟩ := hd
  refine ⟨t ++ (e.text ++ f.indent ++ e.text ++ indentLines e f.indent body ++ e.text ++
    (f.indent ++ delimiter)), ?_, ?_⟩
  · cases e <;> simp [LineEnding.text]
  · rw [raw, written, commentLines,
      indentLines_of_no_break fun h => hs (h.trans (Text.isInfix_trim comment)), ← ht]
    simp [raw, cutShort]

/-- A comment in one line can stand in a block, unless it begins with a delimiter. -/
theorem openComment_of_line {comment : Text} (hn : '\n' ∉ comment)
    (hd : ¬ delimiter <+: Text.trim comment) (e : LineEnding) : OpenComment e comment := by
  refine ⟨fun h => hn (h.subset (by cases e <;> decide)), ?_, hd⟩
  rw [Option.eq_none_iff_forall_ne_some]
  rintro ⟨i, r⟩ h
  rw [eq_append_of_closing? h] at hn
  exact hn (List.mem_append_left r (newline_mem_of_closing? h))

/-- The comment line may be indented already. -/
theorem render_append_trim {i : Text} (hi : ∀ c ∈ i, Text.isIndent c = true) (e : LineEnding)
    (tag comment body : Text) :
    render e i tag (some (i ++ Text.trim comment)) body = render e i tag (some comment) body := by
  rw [render, render, Text.trim_append_trim fun c hc => Text.isBlank_of_isIndent (hi c hc)]

theorem exists_indent_tag (indent : Text) {tag : Text} (h : tag.Inline) :
    ∃ f : Fence, f.indent = indent ∧ f.tag = tag :=
  ⟨⟨indent, tag⟩, rfl, List.takeWhile_eq_self_iff.2 (by simpa [Text.Inline] using h)⟩

/-- A rendered block is the one block of its text, with the indentation and the tag that it was
rendered with. Its first line is the comment again: it leads to the same text, and to the same
reference. -/
theorem render_reads_back {e : LineEnding} {indent tag body : Text} {comment? : Option Text}
    (hindent : ∀ c ∈ indent, Text.isIndent c = true) (htag : tag.Inline)
    (hbody : ¬ delimiter <:+: body)
    (hcomment : ∀ comment ∈ comment?, '\n' ∉ comment ∧ ¬ delimiter <+: Text.trim comment) :
    let text := render e indent tag comment? body
    ∃ f : Fence, Layout.ofText text = ⟨[([], f)], []⟩ ∧ (Layout.ofText text).placed = [(0, f)] ∧
      f.raw = text ∧ f.indent = indent ∧ f.tag = tag ∧
      ∀ comment ∈ comment?, ∃ line, f.firstLine? e = some line ∧
        line = indent ++ Text.trim comment ∧ render e indent tag (some line) body = text ∧
        ∀ family reference, Comment.reference? family comment = some reference →
          Comment.reference? family line = some reference := by
  intro text
  obtain ⟨f, rfl, rfl⟩ := exists_indent_tag indent htag
  have hopen : ∀ comment ∈ comment?, OpenComment e comment := fun comment hc =>
    openComment_of_line (hcomment comment hc).1 (hcomment comment hc).2 e
  have hraw : (f.written e comment? body).raw = text := raw_written e f comment? body
  have hlayout : Layout.ofText text = ⟨[([], f.written e comment? body)], []⟩ := by
    have hstands : (f.written e comment? body).StandsAfter [] :=
      standsAfter_nil hindent (closed_written hindent hbody hopen)
    have hone : Layout.text ⟨[([], f.written e comment? body)], []⟩ = text := by
      simp [Layout.text, hraw]
    rw [← hone]
    exact Layout.ofText_text (by simpa using hstands) rfl
  refine ⟨f.written e comment? body, hlayout, by rw [hlayout]; rfl, hraw, rfl,
    tag_written e f comment? body, fun comment hc => ?_⟩
  obtain rfl : comment? = some comment := hc
  refine ⟨f.indent ++ Text.trim comment, firstLine?_written hindent (hopen comment rfl).single, rfl,
    render_append_trim hindent e f.tag comment body, fun family reference hr => ?_⟩
  exact Comment.reference?_append_trim
    (fun c hc => Text.isBlank_of_isIndent (hindent c hc)) hr

/-- The tag begins with a backtick, the body has two of them and a line feed of the other kind, and
there is a no-break space in front of the comment. -/
theorem render_reads_back_sample :
    let indent : Text := ['\t']
    let tag : Text := "\x60js".toList
    let comment : Text := "\u00a0// a.js#L1-L2 ".toList
    let body : Text := "x\n\x60\x60".toList
    (∀ c ∈ indent, Text.isIndent c = true) ∧ tag.Inline ∧ ¬ delimiter <:+: body ∧
      (∀ comment' ∈ some comment, '\n' ∉ comment' ∧ ¬ delimiter <+: Text.trim comment') ∧
      ∃ f : Fence,
        Layout.ofText (render .crlf indent tag (some comment) body) = ⟨[([], f)], []⟩ ∧
        (Layout.ofText (render .crlf indent tag (some comment) body)).placed = [(0, f)] ∧
        f.raw = render .crlf indent tag (some comment) body ∧ f.indent = indent ∧ f.tag = tag ∧
        ∀ comment' ∈ some comment, ∃ line, f.firstLine? .crlf = some line ∧
          line = indent ++ Text.trim comment' ∧
          render .crlf indent tag (some line) body =
            render .crlf indent tag (some comment) body ∧
          ∀ family reference, Comment.reference? family comment' = some reference →
            Comment.reference? family line = some reference := by
  intro indent tag comment body
  have hindent : ∀ c ∈ indent, Text.isIndent c = true := by decide
  have htag : tag.Inline := by decide
  have hbody : ¬ delimiter <:+: body := by decide
  have hcomment : ∀ comment' ∈ some comment,
      '\n' ∉ comment' ∧ ¬ delimiter <+: Text.trim comment' := by
    rintro comment' ⟨⟩
    decide
  exact ⟨hindent, htag, hbody, hcomment, render_reads_back hindent htag hbody hcomment⟩

end FenceSync.Fence
