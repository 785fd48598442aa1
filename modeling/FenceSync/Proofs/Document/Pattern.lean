import FenceSync.Proofs.Document.Boundaries
/-!
# Blocks as matches of a pattern

A small language of patterns with the meaning that a backtracking search gives them: of the ways to
match, those that begin further to the left come first, and among these those whose repetitions are
shorter. In this language a block is an indentation, a delimiter, anything, the beginning of a line,
an indentation and a delimiter. The blocks that `next?` cuts off one after the other are the matches
of that pattern.
-/
namespace FenceSync

namespace Pattern

inductive Item
  | literal (word : Text)
  /-- Characters of a class, as few as possible. -/
  | few (p : Char → Bool)
  /-- The beginning of a line. -/
  | lineStart

/-- Passes over as few characters of a class as it takes for the rest of a pattern to match. The rest
is given the character in front of it, if there is one. -/
def few? (p : Char → Bool) (rest : Option Char → Text → Option (List Text × Text)) :
    Option Char → Text → Option (Text × List Text × Text)
  | behind, [] => (rest behind []).map ([], ·)
  | behind, c :: t =>
    match rest behind (c :: t) with
    | some x => some ([], x)
    | none => if p c then (few? p rest (some c) t).map fun (taken, x) => (c :: taken, x) else none

/-- The preferred match that begins here, as the texts of the items and the text behind it. -/
def match? : List Item → Option Char → Text → Option (List Text × Text)
  | [], _, t => some ([], t)
  | .literal word :: items, behind, t =>
    (Text.after? word t).bind fun r =>
      (match? items (word.getLast?.or behind) r).map fun (parts, r) => (word :: parts, r)
  | .few p :: items, behind, t =>
    (few? p (match? items) behind t).map fun (taken, parts, r) => (taken :: parts, r)
  | .lineStart :: items, behind, t =>
    if behind = none ∨ behind = some '\n' then
      (match? items behind t).map fun (parts, r) => ([] :: parts, r)
    else none

/-- The leftmost match, with the texts before and behind it. -/
def search? (items : List Item) : Option Char → Text → Option (Text × List Text × Text)
  | behind, [] => (match? items behind []).map ([], ·)
  | behind, c :: t =>
    match match? items behind (c :: t) with
    | some x => some ([], x)
    | none => (search? items (some c) t).map fun (gap, x) => (c :: gap, x)

/-- All matches with their byte offsets, each search beginning where the match before it ends. The
pattern must not match the empty text. -/
def searchAll (items : List Item) (start : Nat) (behind : Option Char) (t : Text) :
    List (Nat × List Text) :=
  match search? items behind t with
  | none => []
  | some (gap, parts, r) =>
    if r.length < t.length then
      let offset := start + gap.byteSize
      let found : Text := parts.flatten
      (offset, parts) :: searchAll items (offset + found.byteSize)
        ((gap ++ found).getLast?.or behind) r
    else []
termination_by t.length

theorem eq_append_of_few? {p : Char → Bool}
    {rest : Option Char → Text → Option (List Text × Text)}
    (hrest : ∀ b t parts r, rest b t = some (parts, r) → t = parts.flatten ++ r)
    {b : Option Char} {t taken r : Text} {parts : List Text}
    (h : few? p rest b t = some (taken, parts, r)) : t = taken ++ parts.flatten ++ r := by
  induction t generalizing b taken with
  | nil =>
    obtain ⟨x, hx, he⟩ := Option.map_eq_some_iff.1 h
    cases he
    exact hrest _ _ _ _ hx
  | cons c t ih =>
    rw [few?] at h
    split at h
    · next x hx =>
      cases h
      exact hrest _ _ _ _ hx
    · split at h
      · obtain ⟨⟨taken', x⟩, hx, he⟩ := Option.map_eq_some_iff.1 h
        cases he
        rw [ih hx]
        rfl
      · cases h

theorem eq_append_of_match? {items : List Item} {b : Option Char} {t r : Text}
    {parts : List Text} (h : match? items b t = some (parts, r)) : t = parts.flatten ++ r := by
  induction items generalizing b t parts r with
  | nil =>
    cases h
    rfl
  | cons item items ih =>
    cases item with
    | literal word =>
      obtain ⟨s, hs, hx⟩ := Option.bind_eq_some_iff.1 h
      obtain ⟨⟨parts', r'⟩, hx, he⟩ := Option.map_eq_some_iff.1 hx
      cases he
      rw [Text.eq_append_of_after? hs, ih hx, List.flatten_cons, List.append_assoc]
    | few p =>
      obtain ⟨⟨taken, parts', r'⟩, hx, he⟩ := Option.map_eq_some_iff.1 h
      cases he
      rw [eq_append_of_few? (fun _ _ _ _ h => ih h) hx, List.flatten_cons]
    | lineStart =>
      rw [match?] at h
      split at h
      · obtain ⟨⟨parts', r'⟩, hx, he⟩ := Option.map_eq_some_iff.1 h
        cases he
        rw [ih hx, List.flatten_cons, List.nil_append]
      · cases h

theorem eq_append_of_search? {items : List Item} {b : Option Char} {t gap r : Text}
    {parts : List Text} (h : search? items b t = some (gap, parts, r)) :
    t = gap ++ parts.flatten ++ r := by
  induction t generalizing b gap with
  | nil =>
    obtain ⟨x, hx, he⟩ := Option.map_eq_some_iff.1 h
    cases he
    exact eq_append_of_match? hx
  | cons c t ih =>
    rw [search?] at h
    split at h
    · next x hx =>
      cases h
      exact eq_append_of_match? hx
    · obtain ⟨⟨gap', x⟩, hx, he⟩ := Option.map_eq_some_iff.1 h
      cases he
      rw [ih hx]
      rfl

/-- When no character of the class can begin the rest, all of them are passed over. -/
theorem few?_eq {p : Char → Bool} {rest : Option Char → Text → Option (List Text × Text)}
    {k : Text → Option (List Text × Text)} (hk : ∀ b t, rest b t = k t)
    (hp : ∀ c t, p c = true → k (c :: t) = none) (b : Option Char) (t : Text) :
    few? p rest b t = (k (t.dropWhile p)).map (t.takeWhile p, ·) := by
  induction t generalizing b with
  | nil => rw [few?, hk]; rfl
  | cons c t ih =>
    rw [few?, hk]
    by_cases hc : p c = true
    · rw [hp c t hc, if_pos hc, ih, Option.map_map, List.dropWhile_cons_of_pos hc,
        List.takeWhile_cons_of_pos hc]
      rfl
    · rw [List.dropWhile_cons_of_neg hc, List.takeWhile_cons_of_neg hc, if_neg hc]
      cases k (c :: t) <;> rfl

end Pattern

namespace Fence

open Pattern

def closingPattern : List Item := [.lineStart, .few Text.isIndent, .literal delimiter]

/-- A block: the indentation, the delimiter and all up to the closing delimiter. -/
def pattern : List Item :=
  .few Text.isIndent :: .literal delimiter :: .few (fun _ => true) :: closingPattern

def ofParts : List Text → Fence
  | indent :: _ :: inside => ⟨indent, inside.flatten⟩
  | _ => ⟨[], []⟩

/-- Behind an indentation there is one place only where a delimiter can stand. -/
theorem match?_indent (items : List Item) (b : Option Char) (t : Text) :
    match? (.few Text.isIndent :: .literal delimiter :: items) b t =
      (Text.after? delimiter (t.dropWhile Text.isIndent)).bind fun r =>
        (match? items (some '\x60') r).map fun (parts, r) =>
          (t.takeWhile Text.isIndent :: delimiter :: parts, r) := by
  have hk : ∀ b t, match? (.literal delimiter :: items) b t =
      match? (.literal delimiter :: items) none t := fun _ _ => rfl
  have hp : ∀ c t, Text.isIndent c = true →
      match? (.literal delimiter :: items) none (c :: t) = none := by
    intro c t hc
    rw [match?, after?_delimiter_cons hc]
    rfl
  rw [match?, few?_eq hk hp, match?]
  cases Text.after? delimiter (t.dropWhile Text.isIndent) with
  | none => rfl
  | some r =>
    simp only [Option.bind_some, Option.map_map]
    rfl

theorem match?_closingPattern (a : Char) (t : Text) :
    (match? closingPattern (some a) t).map (fun (parts, r) => (parts.flatten, r)) =
      if a = '\n' then delimiterLine? t else none := by
  rw [closingPattern, match?]
  by_cases ha : a = '\n'
  · subst ha
    rw [if_pos (.inr rfl), match?_indent, if_pos rfl, delimiterLine?]
    cases Text.after? delimiter (t.dropWhile Text.isIndent) with
    | none => rfl
    | some r => simp [match?]
  · rw [if_neg ha, if_neg (by simp [ha])]
    rfl

/-- The first closing delimiter is the one that leaves the least in front of it. -/
theorem closing?_cons_eq_few? (a : Char) (t : Text) :
    closing? (a :: t) = (few? (fun _ => true) (match? closingPattern) (some a) t).map
      fun (taken, parts, r) => (a :: (taken ++ parts.flatten), r) := by
  induction t generalizing a with
  | nil =>
    rw [closing?, ← match?_closingPattern a [], few?]
    cases match? closingPattern (some a) [] <;> rfl
  | cons c t ih =>
    rw [closing?, ← match?_closingPattern a (c :: t), few?]
    cases match? closingPattern (some a) (c :: t) with
    | some x => rfl
    | none =>
      simp only [Option.map_none, if_pos]
      rw [ih, Option.map_map, Option.map_map]
      rfl

theorem match?_few_closingPattern (t : Text) :
    (match? (.few (fun _ => true) :: closingPattern) (some '\x60') t).map
        (fun (parts, r) => (parts.flatten, r)) = closing? t := by
  have h := closing?_cons_eq_few? '\x60' t
  rw [closing?_cons_of_ne (by decide)] at h
  have hinj : Function.Injective fun x : Text × Text => ('\x60' :: x.1, x.2) := by
    rintro ⟨a, b⟩ ⟨a', b'⟩ hx
    cases hx
    rfl
  apply Option.map_injective hinj
  rw [Option.map_map, match?, Option.map_map]
  exact h.symm

def opening? (t : Text) : Option (Fence × Text) :=
  (Text.after? delimiter (t.dropWhile Text.isIndent)).bind fun r =>
    (closing? r).map fun (inside, rest) => (⟨t.takeWhile Text.isIndent, inside⟩, rest)

theorem match?_pattern (b : Option Char) (t : Text) :
    (match? pattern b t).map (fun (parts, r) => (ofParts parts, r)) = opening? t := by
  rw [pattern, match?_indent, opening?]
  cases Text.after? delimiter (t.dropWhile Text.isIndent) with
  | none => rfl
  | some r =>
    rw [Option.bind_some, Option.bind_some, ← match?_few_closingPattern, Option.map_map,
      Option.map_map]
    rfl

theorem opening?_eq_some_iff {t r : Text} {f : Fence} :
    opening? t = some (f, r) ↔ t = f.raw ++ r ∧ (∀ c ∈ f.indent, Text.isIndent c = true) ∧
      Closed f.inside := by
  obtain ⟨indent, inside⟩ := f
  constructor
  · intro h
    obtain ⟨s, hs, hx⟩ := Option.bind_eq_some_iff.1 h
    obtain ⟨⟨inside', r'⟩, hx, he⟩ := Option.map_eq_some_iff.1 hx
    cases he
    refine ⟨?_, fun c hc => List.mem_takeWhile_imp hc, closed_of_closing? hx⟩
    rw [raw, List.append_assoc, List.append_assoc, ← eq_append_of_closing? hx,
      ← Text.eq_append_of_after? hs, List.takeWhile_append_dropWhile]
  · rintro ⟨rfl, hi, hc⟩
    rw [raw, opening?, List.append_assoc, takeWhile_delimiter hi, dropWhile_delimiter hi,
      Text.after?_append, Option.bind_some, hc.closing?_append]
    rfl

theorem next?_of_opening? {t r : Text} {f : Fence} (h : opening? t = some (f, r)) :
    next? t = some ([], f, r) := by
  obtain ⟨heq, hi, hc⟩ := opening?_eq_some_iff.1 h
  exact next?_eq_some_iff.2 ⟨heq, standsAfter_nil hi hc⟩

theorem StandsAfter.of_cons {f : Fence} {c : Char} {g : Text} (h : f.StandsAfter (c :: g)) :
    f.StandsAfter g := by
  refine ⟨?_, h.indent, fun a ha => h.gap_end a ?_, h.closed⟩
  · have hfirst := h.first
    rw [List.cons_append, List.cons_append, Text.cut?] at hfirst
    split at hfirst
    · cases hfirst
    · obtain ⟨⟨b, r⟩, hb, he⟩ := Option.map_eq_some_iff.1 hfirst
      cases he
      exact hb
  · rw [List.getLast?_cons, ha]
    rfl

/-- A block that does not begin at a character stands after it, too. -/
theorem StandsAfter.cons {f : Fence} {c : Char} {g r : Text} (h : f.StandsAfter g)
    (hnone : opening? (c :: (g ++ f.raw ++ r)) = none) : f.StandsAfter (c :: g) := by
  have hne : ∀ f' r', opening? (c :: (g ++ f.raw ++ r)) ≠ some (f', r') :=
    fun f' r' h' => by rw [hnone] at h'; cases h'
  refine ⟨?_, h.indent, fun a ha => ?_, h.closed⟩
  · have hafter : Text.after? delimiter (c :: (g ++ f.indent ++ delimiter)) = none := by
      rw [Option.eq_none_iff_forall_ne_some]
      intro s hs
      have heq : c :: (g ++ f.raw ++ r) = delimiter ++ (s ++ (f.inside ++ r)) := by
        rw [← List.append_assoc, ← Text.eq_append_of_after? hs]
        simp [raw]
      have hclosing : closing? (s ++ (f.inside ++ r)) ≠ none := by
        intro hn
        have hn' := closing?_eq_none_of_isInfix hn (List.suffix_append s (f.inside ++ r)).isInfix
        rw [h.closed.closing?_append] at hn'
        cases hn'
      obtain ⟨⟨j, r'⟩, hj⟩ := Option.ne_none_iff_exists'.1 hclosing
      obtain ⟨hjr, hcj⟩ := closing?_eq_some_iff.1 hj
      refine hne ⟨[], j⟩ r' (opening?_eq_some_iff.2 ⟨?_, by simp, hcj⟩)
      rw [heq, hjr, raw]
      simp
    rw [List.cons_append, List.cons_append, Text.cut?, hafter, h.first]
    rfl
  · rcases g with - | ⟨b, g⟩
    · rw [List.getLast?_singleton, Option.mem_some_iff] at ha
      subst ha
      rw [Bool.eq_false_iff]
      intro hc
      refine hne ⟨c :: f.indent, f.inside⟩ r (opening?_eq_some_iff.2 ⟨?_, ?_, h.closed⟩)
      · simp [raw]
      · exact List.forall_mem_cons.2 ⟨hc, h.indent⟩
    · rw [List.getLast?_cons_cons] at ha
      exact h.gap_end a ha

/-- The first block of a text is the leftmost one. -/
theorem next?_cons (c : Char) (t : Text) :
    next? (c :: t) = match opening? (c :: t) with
      | some (f, r) => some ([], f, r)
      | none => (next? t).map fun (g, f, r) => (c :: g, f, r) := by
  cases ho : opening? (c :: t) with
  | some x => exact next?_of_opening? ho
  | none =>
    cases hn : next? t with
    | some x =>
      obtain ⟨g, f, r⟩ := x
      obtain ⟨rfl, hs⟩ := next?_eq_some_iff.1 hn
      exact next?_eq_some_iff.2 ⟨by simp, hs.cons ho⟩
    | none =>
      change next? (c :: t) = none
      rw [Option.eq_none_iff_forall_ne_some]
      rintro ⟨g, f, r⟩ hx
      obtain ⟨heq, hs⟩ := next?_eq_some_iff.1 hx
      rcases g with - | ⟨d, g⟩
      · have ho' := opening?_eq_some_iff.2 ⟨heq, hs.indent, hs.closed⟩
        rw [ho] at ho'
        cases ho'
      · obtain ⟨-, rfl⟩ := List.cons.inj heq
        cases hn.symm.trans (hs.of_cons.next?_append r)

theorem search?_pattern (b : Option Char) (t : Text) :
    (search? pattern b t).map (fun (gap, parts, r) => (gap, ofParts parts, r)) = next? t := by
  induction t generalizing b with
  | nil =>
    rw [search?]
    rfl
  | cons c t ih =>
    rw [search?, next?_cons, ← match?_pattern b (c :: t)]
    cases match? pattern b (c :: t) with
    | some x => rfl
    | none =>
      simp only [Option.map_none]
      rw [← ih (some c), Option.map_map, Option.map_map]
      rfl

/-- The blocks of a document are the matches of the pattern. -/
theorem map_searchAll_pattern (start : Nat) (b : Option Char) (t : Text) :
    (searchAll pattern start b t).map (fun (offset, parts) => (offset, ofParts parts)) =
      Layout.placedFrom start (Layout.ofText t).blocks := by
  fun_induction searchAll pattern start b t with
  | case1 start b t h =>
    have hn := search?_pattern b t
    rw [h] at hn
    rw [Layout.ofText_of_next?_eq_none hn.symm]
    rfl
  | case2 start b t gap parts r h hlt offset found ih =>
    have hn := search?_pattern b t
    rw [h] at hn
    have hfound : found = (ofParts parts).raw := by
      have heq := eq_append_of_next? hn.symm
      rw [eq_append_of_search? h] at heq
      exact List.append_cancel_left (List.append_cancel_right heq)
    rw [List.map_cons, ih, Layout.ofText_of_next?_eq_some hn.symm, Layout.placedFrom, hfound]
  | case3 start b t gap parts r h hlt =>
    have hn := search?_pattern b t
    rw [h] at hn
    have hlen := congrArg List.length (eq_append_of_next? hn.symm)
    have hpos := (ofParts parts).length_raw_pos
    simp only [List.length_append] at hlen
    omega

end Fence
end FenceSync
