import FenceSync.Proofs.Document.Placed
/-!
# Blocks delimited by lines

Read line by line, a document has a block where a line begins with a delimiter, and the block ends at
the first later line that begins with a delimiter and is indented no deeper. `byLines` is this
reading of a document. The blocks of `ofText` begin at any delimiter, and end at the first line that
begins with one; they are those of the other reading exactly as long as no delimiter stands where
that reading does not look for one.
-/
namespace FenceSync

namespace Fence

/-- The text begins with a delimiter, behind at most so many spaces and tabs. -/
def BeginsWithin (depth : Nat) (t : Text) : Prop :=
  ∃ i : Text, (∀ c ∈ i, Text.isIndent c = true) ∧ i.length ≤ depth ∧ i ++ delimiter <+: t

/-- The text ends behind the delimiter of its first line, other than the one it begins with, that
begins with a delimiter behind at most so many spaces and tabs. -/
def ClosedByLine (depth : Nat) (inside : Text) : Prop :=
  ∃ body i : Text, inside = body ++ '\n' :: (i ++ delimiter) ∧
    (∀ c ∈ i, Text.isIndent c = true) ∧ i.length ≤ depth ∧
    ∀ a b : Text, body = a ++ '\n' :: b → ¬BeginsWithin depth b

/-- Behind the text `before` the block takes up whole lines but for what follows its closing
delimiter. -/
structure DelimitedByLines (before : Text) (f : Fence) : Prop where
  /-- Only spaces and tabs stand in front of the opening delimiter on its line. -/
  opens : ∀ c ∈ Text.takeEndWhile (· != '\n') (before ++ f.indent), Text.isIndent c = true
  /-- The closing delimiter is the first that begins a line and is indented no deeper. -/
  closes : ClosedByLine f.indent.length f.inside

def delimiterLineWithin? (depth : Nat) (t : Text) : Option (Text × Text) :=
  if (t.takeWhile Text.isIndent).length ≤ depth then delimiterLine? t else none

def closingWithin? (depth : Nat) : Text → Option (Text × Text)
  | [] => none
  | c :: t =>
    match if c = '\n' then delimiterLineWithin? depth t else none with
    | some (d, rest) => some (c :: d, rest)
    | none => (closingWithin? depth t).map fun (inside, rest) => (c :: inside, rest)

def lineOpening? (t : Text) : Option (Fence × Text) :=
  let indent := t.takeWhile Text.isIndent
  (Text.after? delimiter (t.dropWhile Text.isIndent)).bind fun r =>
    (closingWithin? indent.length r).map fun (inside, rest) => (⟨indent, inside⟩, rest)

/-- The text before the first block that a line opens, the block, and the text after it. Whether a
line begins at the beginning of the text is told by `fresh`. -/
def nextByLines? (fresh : Bool) : Text → Option (Text × Fence × Text)
  | [] => none
  | c :: t =>
    match if fresh then lineOpening? (c :: t) else none with
    | some (f, r) => some ([], f, r)
    | none => (nextByLines? (c = '\n') t).map fun (g, f, r) => (c :: g, f, r)

section

variable {depth : Nat} {i t r : Text}

theorem not_mem_newline (hi : ∀ c ∈ i, Text.isIndent c = true) : '\n' ∉ i ++ delimiter := by
  rw [List.mem_append, not_or]
  exact ⟨fun h => Bool.false_ne_true (hi _ h), by decide⟩

theorem delimiterLineWithin?_eq_some_iff {d : Text} :
    delimiterLineWithin? depth t = some (d, r) ↔ ∃ i : Text, (∀ c ∈ i, Text.isIndent c = true) ∧
      i.length ≤ depth ∧ d = i ++ delimiter ∧ t = d ++ r := by
  rw [delimiterLineWithin?]
  constructor
  · intro h
    split at h
    · next hdepth =>
      obtain ⟨i, hi, rfl, rfl⟩ := delimiterLine?_eq_some_iff.1 h
      rw [takeWhile_delimiter hi] at hdepth
      exact ⟨i, hi, hdepth, rfl, rfl⟩
    · cases h
  · rintro ⟨i, hi, hdepth, rfl, rfl⟩
    rw [takeWhile_delimiter hi, if_pos hdepth, delimiterLine?_append hi]

theorem delimiterLineWithin?_eq_none_iff :
    delimiterLineWithin? depth t = none ↔ ¬BeginsWithin depth t := by
  rw [Option.eq_none_iff_forall_ne_some]
  constructor
  · rintro h ⟨i, hi, hdepth, r, rfl⟩
    exact h _ (delimiterLineWithin?_eq_some_iff.2 ⟨i, hi, hdepth, rfl, rfl⟩)
  · rintro h ⟨d, r⟩ hd
    obtain ⟨i, hi, hdepth, rfl, rfl⟩ := delimiterLineWithin?_eq_some_iff.1 hd
    exact h ⟨i, hi, hdepth, List.prefix_append _ r⟩

/-- Whether a line begins with a delimiter is settled by its end. -/
theorem beginsWithin_append_newline (s : Text) :
    BeginsWithin depth (t ++ '\n' :: s) ↔ BeginsWithin depth t :=
  exists_congr fun _ => and_congr_right fun hi =>
    and_congr_right fun _ => Text.prefix_append_cons_iff (not_mem_newline hi)

theorem closingWithin?_newline_of_beginsWithin (hi : ∀ c ∈ i, Text.isIndent c = true)
    (hdepth : i.length ≤ depth) (r : Text) :
    closingWithin? depth ('\n' :: (i ++ delimiter ++ r)) = some ('\n' :: (i ++ delimiter), r) := by
  rw [closingWithin?, if_pos rfl,
    delimiterLineWithin?_eq_some_iff.2 ⟨i, hi, hdepth, rfl, rfl⟩]

theorem closingWithin?_cons_of_not_beginsWithin {c : Char}
    (h : c = '\n' → ¬BeginsWithin depth t) : closingWithin? depth (c :: t) =
      (closingWithin? depth t).map fun (inside, rest) => (c :: inside, rest) := by
  rw [closingWithin?]
  by_cases hc : c = '\n'
  · rw [if_pos hc, delimiterLineWithin?_eq_none_iff.2 (h hc)]
  · rw [if_neg hc]

theorem ClosedByLine.closingWithin?_append (h : ClosedByLine depth i) (r : Text) :
    closingWithin? depth (i ++ r) = some (i, r) := by
  obtain ⟨body, j, rfl, hj, hdepth, hfirst⟩ := h
  induction body with
  | nil => exact closingWithin?_newline_of_beginsWithin hj hdepth r
  | cons c body ih =>
    have hpass : c = '\n' → ¬BeginsWithin depth (body ++ '\n' :: (j ++ delimiter) ++ r) := by
      rintro rfl
      rw [List.append_assoc, List.cons_append, beginsWithin_append_newline]
      exact hfirst [] body rfl
    rw [List.cons_append, List.cons_append, closingWithin?_cons_of_not_beginsWithin hpass,
      ih fun a b hab => hfirst (c :: a) b (by rw [hab]; rfl)]
    rfl

theorem closingWithin?_eq_some_iff :
    closingWithin? depth t = some (i, r) ↔ t = i ++ r ∧ ClosedByLine depth i := by
  refine ⟨fun h => ?_, fun ⟨ht, hc⟩ => ht ▸ hc.closingWithin?_append r⟩
  induction t generalizing i with
  | nil => cases h
  | cons c t ih =>
    by_cases hb : c = '\n' ∧ BeginsWithin depth t
    · obtain ⟨rfl, j, hj, hdepth, s, rfl⟩ := hb
      rw [closingWithin?_newline_of_beginsWithin hj hdepth] at h
      cases h
      exact ⟨rfl, [], j, rfl, hj, hdepth, fun a b hab => by simp at hab⟩
    · rw [closingWithin?_cons_of_not_beginsWithin (not_and.1 hb)] at h
      obtain ⟨⟨i', r'⟩, h', he⟩ := Option.map_eq_some_iff.1 h
      cases he
      obtain ⟨rfl, body, j, rfl, hj, hdepth, hfirst⟩ := ih h'
      refine ⟨rfl, c :: body, j, rfl, hj, hdepth, fun a b hab => ?_⟩
      rcases a with - | ⟨a, as⟩
      · obtain ⟨rfl, rfl⟩ := List.cons.inj hab
        rw [List.append_assoc, List.cons_append, beginsWithin_append_newline] at hb
        exact fun hbegin => hb ⟨rfl, hbegin⟩
      · exact hfirst as b (List.cons.inj hab).2

theorem lineOpening?_eq_some_iff {f : Fence} : lineOpening? t = some (f, r) ↔
    t = f.raw ++ r ∧ (∀ c ∈ f.indent, Text.isIndent c = true) ∧
      ClosedByLine f.indent.length f.inside := by
  obtain ⟨indent, inside⟩ := f
  constructor
  · intro h
    obtain ⟨s, hs, hx⟩ := Option.bind_eq_some_iff.1 h
    obtain ⟨⟨inside', r'⟩, hx, he⟩ := Option.map_eq_some_iff.1 hx
    cases he
    obtain ⟨rfl, hc⟩ := closingWithin?_eq_some_iff.1 hx
    refine ⟨?_, fun c hc => List.mem_takeWhile_imp hc, hc⟩
    rw [raw, List.append_assoc, List.append_assoc, ← Text.eq_append_of_after? hs,
      List.takeWhile_append_dropWhile]
  · rintro ⟨rfl, hi, hc⟩
    rw [raw, lineOpening?, List.append_assoc, takeWhile_delimiter hi, dropWhile_delimiter hi,
      Text.after?_append, Option.bind_some, hc.closingWithin?_append]
    rfl

/-- A line that opens a block begins with a delimiter that is closed somehow. -/
theorem lineOpening?_eq_none (h : opening? t = none) : lineOpening? t = none := by
  rw [Option.eq_none_iff_forall_ne_some]
  rintro ⟨f, r⟩ hopen
  obtain ⟨rfl, hi, body, i, hinside, hj, -, -⟩ := lineOpening?_eq_some_iff.1 hopen
  have hclosing : closing? (f.inside ++ r) ≠ none := by
    intro hnone
    have hline := closing?_eq_none_iff.1 hnone body (i ++ delimiter ++ r) (by simp [hinside])
    rw [delimiterLine?_append hj] at hline
    cases hline
  obtain ⟨⟨inside, r'⟩, hclosed⟩ := Option.ne_none_iff_exists'.1 hclosing
  obtain ⟨heq, hc⟩ := closing?_eq_some_iff.1 hclosed
  have hsome : opening? (f.raw ++ r) = some (⟨f.indent, inside⟩, r') :=
    opening?_eq_some_iff.2 ⟨by simp only [raw, List.append_assoc, heq], hi, hc⟩
  rw [h] at hsome
  cases hsome

theorem ClosedByLine.getLast?_append_raw {f : Fence} (h : ClosedByLine depth f.inside) (s : Text) :
    (s ++ f.raw).getLast? = some '\x60' := by
  obtain ⟨body, j, hinside, -⟩ := h
  simp [raw, hinside, delimiter, List.getLast?_append, List.getLast?_cons]

end

def endsLine (t : Text) : Bool := t.getLast?.all (· = '\n')

theorem endsLine_append (s t : Text) :
    endsLine (s ++ t) = if t = [] then endsLine s else endsLine t := by
  split
  · next h => rw [h, List.append_nil]
  · next h =>
    obtain ⟨u, c, rfl⟩ := List.eq_nil_or_concat t |>.resolve_left h
    simp [endsLine]

theorem not_isIndent_of_endsLine {t : Text} (h : endsLine t = true) :
    ∀ c ∈ t.getLast?, Text.isIndent c = false := by
  intro c hc
  rw [endsLine, Option.all_eq_true] at h
  rw [of_decide_eq_true (h c hc)]
  rfl

section

variable {before g i r t : Text} {f : Fence} {fresh : Bool}

/-- Behind a text that does not end with a space or a tab, an indentation stands at the beginning of
a line if a line begins behind the text. -/
theorem forall_mem_takeEndWhile_iff (hi : ∀ c ∈ i, Text.isIndent c = true)
    (hb : ∀ c ∈ before.getLast?, Text.isIndent c = false) :
    (∀ c ∈ Text.takeEndWhile (· != '\n') (before ++ i), Text.isIndent c = true) ↔
      endsLine before = true := by
  have hne : ∀ c ∈ i, (c != '\n') = true := by
    intro c hc
    rw [bne_iff_ne]
    rintro rfl
    exact Bool.false_ne_true (hi _ hc)
  rw [Text.takeEndWhile_append_of_pos hne, List.forall_mem_append, and_iff_left hi]
  rcases List.eq_nil_or_concat before with rfl | ⟨u, a, rfl⟩
  · simp [Text.takeEndWhile, endsLine]
  · have ha := hb a (by simp)
    by_cases hnl : a = '\n'
    · simp [Text.takeEndWhile, endsLine, hnl]
    · simp [Text.takeEndWhile, endsLine, hnl, ha]

theorem ClosedByLine.endsLine_append_raw {depth : Nat} (h : ClosedByLine depth f.inside) (s : Text) :
    endsLine (s ++ f.raw) = false := by
  rw [endsLine, h.getLast?_append_raw]
  rfl

theorem nextByLines?_of_lineOpening? (h : lineOpening? t = some (f, r)) :
    nextByLines? true t = some ([], f, r) := by
  cases t with
  | nil => cases h
  | cons c t => rw [nextByLines?, if_pos rfl, h]

theorem nextByLines?_cons_of_none {c : Char} (h : fresh = true → lineOpening? (c :: t) = none) :
    nextByLines? fresh (c :: t) =
      (nextByLines? (c = '\n') t).map fun (g, f, r) => (c :: g, f, r) := by
  rw [nextByLines?]
  cases fresh with
  | false => rfl
  | true => rw [if_pos rfl, h rfl]

/-- What is read line by line is a block at the beginning of a line. -/
theorem nextByLines?_eq_some (h : nextByLines? fresh t = some (g, f, r)) :
    t = g ++ f.raw ++ r ∧ (∀ c ∈ f.indent, Text.isIndent c = true) ∧
      ClosedByLine f.indent.length f.inside ∧ endsLine g = true ∧ (g = [] → fresh = true) := by
  induction t generalizing fresh g with
  | nil => cases h
  | cons c t ih =>
    by_cases hopen : fresh = true ∧ lineOpening? (c :: t) ≠ none
    · obtain ⟨rfl, hopen⟩ := hopen
      obtain ⟨⟨f', r'⟩, hopen⟩ := Option.ne_none_iff_exists'.1 hopen
      rw [nextByLines?_of_lineOpening? hopen] at h
      cases h
      obtain ⟨heq, hi, hc⟩ := lineOpening?_eq_some_iff.1 hopen
      exact ⟨heq, hi, hc, rfl, fun _ => rfl⟩
    · rw [nextByLines?_cons_of_none fun hf => not_not.1 (not_and.1 hopen hf)] at h
      obtain ⟨⟨g', f', r'⟩, h', he⟩ := Option.map_eq_some_iff.1 h
      cases he
      obtain ⟨rfl, hi, hc, hg, hfirst⟩ := ih h'
      refine ⟨by simp, hi, hc, ?_, fun hnil => absurd hnil (List.cons_ne_nil _ _)⟩
      rw [← List.singleton_append, endsLine_append]
      split
      · next hnil => simpa [endsLine] using hfirst hnil
      · exact hg

theorem nextByLines?_eq_none (h : next? t = none) : nextByLines? fresh t = none := by
  induction t generalizing fresh with
  | nil => rfl
  | cons c t ih =>
    have hnil : next? ([] ++ c :: t) = none := h
    have hopen := opening?_eq_none hnil
    rw [next?_cons, hopen] at h
    rw [nextByLines?_cons_of_none fun _ => lineOpening?_eq_none hopen, ih (Option.map_eq_none_iff.1 h)]
    rfl

/-- A block that is delimited by lines is found when the text is read line by line. -/
theorem StandsAfter.nextByLines?_append (h : f.StandsAfter g)
    (hlines : f.DelimitedByLines (before ++ g))
    (hlast : ∀ c ∈ (before ++ g).getLast?, Text.isIndent c = false) (r : Text) :
    nextByLines? (endsLine before) (g ++ f.raw ++ r) = some (g, f, r) := by
  induction g generalizing before with
  | nil =>
    rw [List.append_nil] at hlines hlast
    rw [(forall_mem_takeEndWhile_iff h.indent hlast).1 hlines.opens]
    exact nextByLines?_of_lineOpening? (lineOpening?_eq_some_iff.2 ⟨rfl, h.indent, hlines.closes⟩)
  | cons c g ih =>
    have hopen : opening? (c :: (g ++ f.raw ++ r)) = none := by
      rw [Option.eq_none_iff_forall_ne_some]
      rintro ⟨f', r'⟩ ho
      cases (next?_of_opening? ho).symm.trans (h.next?_append r)
    rw [List.append_cons] at hlines hlast
    have hg := ih h.of_cons hlines hlast
    rw [endsLine_append, if_neg (List.cons_ne_nil _ _)] at hg
    rw [List.cons_append, List.cons_append, nextByLines?_cons_of_none fun _ =>
      lineOpening?_eq_none hopen]
    have hc : endsLine [c] = decide (c = '\n') := rfl
    rw [← hc, hg]
    rfl

end

end Fence

namespace Layout

def DelimitedFrom (before : Text) : List (Text × Fence) → Prop
  | [] => True
  | (gap, f) :: rest =>
    f.DelimitedByLines (before ++ gap) ∧ DelimitedFrom (before ++ gap ++ f.raw) rest

def byLinesFrom (fresh : Bool) (t : Text) : Layout :=
  match _found : Fence.nextByLines? fresh t with
  | none => ⟨[], t⟩
  | some (gap, f, rest) =>
    let l := byLinesFrom false rest
    ⟨(gap, f) :: l.blocks, l.tail⟩
termination_by t.length
decreasing_by
  have := congrArg List.length (Fence.nextByLines?_eq_some _found).1
  have := f.length_raw_pos
  simp only [List.length_append] at *
  omega

def byLines (t : Text) : Layout := byLinesFrom true t

variable {before t : Text} {fresh : Bool}

theorem byLinesFrom_of_eq_none (h : Fence.nextByLines? fresh t = none) :
    byLinesFrom fresh t = ⟨[], t⟩ := by
  rw [byLinesFrom]
  split
  · rfl
  · simp_all

theorem byLinesFrom_of_eq_some {g r : Text} {f : Fence}
    (h : Fence.nextByLines? fresh t = some (g, f, r)) :
    byLinesFrom fresh t =
      ⟨(g, f) :: (byLinesFrom false r).blocks, (byLinesFrom false r).tail⟩ := by
  rw [byLinesFrom]
  split
  · simp_all
  · next h' =>
    rw [h] at h'
    cases h'
    rfl

theorem text_byLinesFrom (fresh : Bool) (t : Text) : (byLinesFrom fresh t).text = t := by
  fun_induction byLinesFrom fresh t with
  | case1 fresh t _ => simp [text]
  | case2 fresh t g f r h l ih =>
    obtain ⟨rfl, -⟩ := Fence.nextByLines?_eq_some h
    rw [text_cons]
    exact congrArg _ ih

/-- If all blocks are delimited by lines, they are found line by line. -/
theorem byLinesFrom_eq_ofText (hlast : ∀ c ∈ before.getLast?, Text.isIndent c = false)
    (h : DelimitedFrom before (ofText t).blocks) :
    byLinesFrom (Fence.endsLine before) t = ofText t := by
  induction t using ofText.induct generalizing before with
  | case1 t hn =>
    rw [ofText_of_next?_eq_none hn, byLinesFrom_of_eq_none (Fence.nextByLines?_eq_none hn)]
  | case2 t g f r hn ih =>
    rw [ofText_of_next?_eq_some hn] at h ⊢
    obtain ⟨hf, hrest⟩ := h
    obtain ⟨rfl, hs⟩ := Fence.next?_eq_some_iff.1 hn
    have hgap : ∀ c ∈ (before ++ g).getLast?, Text.isIndent c = false := by
      intro c hc
      rw [List.getLast?_append] at hc
      rcases Option.or_eq_some_iff.1 hc with hc | ⟨-, hc⟩
      · exact hs.gap_end c hc
      · exact hlast c hc
    have hraw := hf.closes.getLast?_append_raw (before ++ g)
    have hrec := ih (by rw [hraw]; rintro _ ⟨⟩; rfl) hrest
    rw [hf.closes.endsLine_append_raw] at hrec
    rw [byLinesFrom_of_eq_some (hs.nextByLines?_append hf hgap r), hrec]

/-- Blocks that are found line by line are delimited by lines. -/
theorem delimitedFrom_byLinesFrom (hfresh : fresh = Fence.endsLine before) :
    DelimitedFrom before (byLinesFrom fresh t).blocks := by
  induction fresh, t using byLinesFrom.induct generalizing before with
  | case1 fresh t hn =>
    rw [byLinesFrom_of_eq_none hn]
    trivial
  | case2 fresh t g f r hn ih =>
    rw [byLinesFrom_of_eq_some hn]
    obtain ⟨rfl, hi, hc, hg, hfirst⟩ := Fence.nextByLines?_eq_some hn
    have hends : Fence.endsLine (before ++ g) = true := by
      rw [Fence.endsLine_append]
      split
      · next hnil => exact hfresh ▸ hfirst hnil
      · exact hg
    have hopens := Fence.forall_mem_takeEndWhile_iff hi (Fence.not_isIndent_of_endsLine hends)
    exact ⟨⟨hopens.2 hends, hc⟩, ih (hc.endsLine_append_raw _).symm⟩

/-- A block at the beginning of a line stands after its gap if no delimiter is in the gap. -/
theorem standsAfter_of_endsLine {f : Fence} {g : Text} (hg : Fence.endsLine g = true)
    (hi : ∀ c ∈ f.indent, Text.isIndent c = true) (hn : ¬delimiter <:+: g)
    (hc : Fence.Closed f.inside) : f.StandsAfter g := by
  refine ⟨?_, hi, Fence.not_isIndent_of_endsLine hg, hc⟩
  have hcut := Fence.cut?_delimiter_append hi []
  rw [List.append_nil] at hcut
  rcases List.eq_nil_or_concat g with rfl | ⟨u, c, rfl⟩
  · exact hcut
  · rw [List.concat_eq_append] at hg hn ⊢
    have hnl : c = '\n' := by simpa [Fence.endsLine] using hg
    have hu : ¬delimiter <:+: u := fun h => hn (h.trans (List.prefix_append u [c]).isInfix)
    rw [hnl, List.append_assoc, List.append_assoc, List.singleton_append,
      Text.cut?_append_cons (by decide) hu, hcut, Option.map_some, List.append_assoc,
      List.singleton_append]

theorem standsAfter_of_mem_byLinesFrom : ∀ x ∈ (byLinesFrom fresh t).blocks,
    ¬delimiter <:+: x.1 → Fence.Closed x.2.inside → x.2.StandsAfter x.1 := by
  induction fresh, t using byLinesFrom.induct with
  | case1 fresh t hn =>
    rw [byLinesFrom_of_eq_none hn]
    simp
  | case2 fresh t g f r hn ih =>
    rw [byLinesFrom_of_eq_some hn]
    obtain ⟨-, hi, -, hg, -⟩ := Fence.nextByLines?_eq_some hn
    intro x hx hgap hc
    rcases List.mem_cons.1 hx with rfl | hx
    · exact standsAfter_of_endsLine hg hi hgap hc
    · exact ih x hx hgap hc

end Layout

/-- All blocks of a document are delimited by lines exactly if they are those that are found line by
line. That is so exactly if, where blocks are found line by line, no delimiter stands in a gap, no
line in a block begins with a delimiter that is indented deeper, and none in the tail has a line
behind it that begins with one. -/
theorem delimited_by_lines_iff (t : Text) :
    (Layout.DelimitedFrom [] (Layout.ofText t).blocks ↔ Layout.ofText t = Layout.byLines t) ∧
      (Layout.ofText t = Layout.byLines t ↔
        (∀ x ∈ (Layout.byLines t).blocks, ¬delimiter <:+: x.1 ∧ Fence.Closed x.2.inside) ∧
          Fence.next? (Layout.byLines t).tail = none) := by
  refine ⟨⟨fun h => ?_, fun h => ?_⟩, fun h => ?_, fun ⟨hblocks, htail⟩ => ?_⟩
  · exact (Layout.byLinesFrom_eq_ofText (by simp) h).symm
  · rw [h]
    exact Layout.delimitedFrom_byLinesFrom rfl
  · rw [← h]
    exact ⟨fun x hx => ⟨(Layout.gap_of_mem_blocks t x hx).1,
      (Layout.standsAfter_of_mem_blocks t x hx).closed⟩, Layout.next?_tail t⟩
  · have hstands : ∀ x ∈ (Layout.byLines t).blocks, x.2.StandsAfter x.1 := fun x hx =>
      Layout.standsAfter_of_mem_byLinesFrom x hx (hblocks x hx).1 (hblocks x hx).2
    have htext := Layout.ofText_text hstands htail
    rwa [Layout.byLines, Layout.text_byLinesFrom] at htext

/-- A delimiter within a line opens a block, and one that is indented deeper than the block closes
it. -/
theorem not_delimited_by_lines :
    ¬Layout.DelimitedFrom [] (Layout.ofText "use ```js\n// a.js\n```\n".toList).blocks ∧
      ¬Layout.DelimitedFrom [] (Layout.ofText "```js\n    ```\n```\n".toList).blocks := by
  have hprose : (Layout.ofText "use ```js\n// a.js\n```\n".toList).blocks =
      [("use".toList, ⟨[' '], "js\n// a.js\n```".toList⟩)] := by decide +kernel
  have hdeep : (Layout.ofText "```js\n    ```\n```\n".toList).blocks =
      [([], ⟨[], "js\n    ```".toList⟩)] := by decide +kernel
  constructor
  · rw [hprose]
    rintro ⟨⟨hopens, -⟩, -⟩
    revert hopens
    decide +kernel
  · rw [hdeep]
    rintro ⟨⟨-, hcloses⟩, -⟩
    have h := hcloses.closingWithin?_append []
    revert h
    decide +kernel

/-- Read line by line, the first of these texts has no block and the second has one that goes on to
the last line. -/
example : (Layout.byLines "use ```js\n// a.js\n```\n".toList).fences = [] ∧
    (Layout.byLines "```js\n    ```\n```\n".toList).fences =
      [⟨[], "js\n    ```\n```".toList⟩] := by
  decide +kernel

end FenceSync
