import FenceSync.Proofs.Document.Pattern
/-!
# A plain scanner

Blocks found by positions in the text: the next delimiter, the next line that begins with one, and
the indentation in front of the first. The blocks of a document are those that this scanner finds,
and those that the pattern matches.
-/
namespace FenceSync

namespace Scanner

variable (t : Text)

def delimiterAt (i : Nat) : Bool := (t.drop i).take 3 = delimiter

def indentAfter (i : Nat) : Nat := ((t.drop i).takeWhile Text.isIndent).length

/-- The number of spaces and tabs that end at the position, none of them before `p`. -/
def indentBefore (p i : Nat) : Nat := (((t.take i).drop p).reverse.takeWhile Text.isIndent).length

/-- A line but the first begins at the position, with a delimiter behind spaces and tabs. -/
def closesAt (i : Nat) : Bool := t[i - 1]? = some '\n' && delimiterAt t (i + indentAfter t i)

def first? (P : Nat → Bool) (p : Nat) : Option Nat := (List.range' p (t.length - p)).find? P

def slice (i j : Nat) : Text := (t.take j).drop i

variable {t}

theorem le_of_first? {P : Nat → Bool} {p q : Nat} (h : first? t P p = some q) :
    p ≤ q ∧ q < t.length := by
  have hq := List.mem_range'_1.1 (List.mem_of_find?_eq_some h)
  omega

variable (t)

/-- The blocks from position `p` on, with their byte offsets. -/
def fencesFrom (p : Nat) : List (Nat × Fence) :=
  match _hopen : first? t (delimiterAt t) p with
  | none => []
  | some q =>
    match _hclose : first? t (closesAt t) (q + 4) with
    | none => []
    | some l =>
      let start := q - indentBefore t p q
      let stop := l + indentAfter t l + 3
      (Text.byteSize (t.take start), ⟨slice t start q, slice t (q + 3) stop⟩) :: fencesFrom stop
termination_by t.length - p
decreasing_by
  have := le_of_first? _hopen
  have := le_of_first? _hclose
  omega

def fences : List (Nat × Fence) := fencesFrom t 0

variable {t}

theorem first?_eq {P : Nat → Bool} {p : Nat} (h : P p = true → p < t.length) :
    first? t P p = if P p then some p else first? t P (p + 1) := by
  rw [first?, first?]
  by_cases hp : p < t.length
  · have hlen : t.length - p = (t.length - (p + 1)) + 1 := by omega
    rw [hlen, List.range'_succ, List.find?_cons]
    cases P p <;> rfl
  · have hP : P p = false := by
      rw [Bool.eq_false_iff]
      exact fun h' => hp (h h')
    have hlen : t.length - p = 0 := by omega
    have hlen' : t.length - (p + 1) = 0 := by omega
    rw [hP, hlen, hlen']
    rfl

theorem lt_of_delimiterAt {i : Nat} (h : delimiterAt t i = true) : i < t.length := by
  by_contra hi
  rw [delimiterAt, List.drop_eq_nil_of_le (by omega)] at h
  exact absurd h (by decide)

theorem lt_of_closesAt {i : Nat} (h : closesAt t i = true) : i < t.length := by
  rw [closesAt, Bool.and_eq_true] at h
  have := lt_of_delimiterAt h.2
  omega

theorem after?_delimiter_drop (i : Nat) :
    Text.after? delimiter (t.drop i) = if delimiterAt t i then some (t.drop (i + 3)) else none := by
  by_cases h : delimiterAt t i = true
  · have heq : (t.drop i).take 3 = delimiter := by simpa [delimiterAt] using h
    rw [if_pos h, Text.after?_eq_some_iff, ← heq, ← List.drop_drop, List.take_append_drop]
  · rw [if_neg h, Text.after?_eq_none_iff]
    rintro ⟨r, hr⟩
    apply h
    rw [delimiterAt, ← hr]
    rfl

theorem slice_self (i : Nat) : slice t i i = [] := by
  rw [slice, List.drop_eq_nil_iff, List.length_take]
  omega

theorem slice_eq_cons {i j : Nat} (hi : i < t.length) (hj : i < j) :
    slice t i j = t[i] :: slice t (i + 1) j := by
  have h : i < (t.take j).length := by
    rw [List.length_take]
    omega
  rw [slice, List.drop_eq_getElem_cons h, List.getElem_take]
  rfl

/-- The first delimiter from a position on. -/
theorem cut?_drop (p : Nat) : Text.cut? delimiter (t.drop p) =
    (first? t (delimiterAt t) p).map fun q => (slice t p q, t.drop (q + 3)) := by
  induction h : t.length - p generalizing p with
  | zero =>
    rw [List.drop_eq_nil_of_le (by omega), first?, h]
    rfl
  | succ n ih =>
    have hp : p < t.length := by omega
    have hafter := after?_delimiter_drop (t := t) p
    rw [first?_eq lt_of_delimiterAt]
    rw [List.drop_eq_getElem_cons hp] at hafter ⊢
    rw [Text.cut?, hafter]
    by_cases hd : delimiterAt t p = true
    · rw [if_pos hd, if_pos hd, Option.map_some, slice_self]
    · rw [if_neg hd, if_neg hd, ih (p + 1) (by omega), Option.map_map]
      cases hf : first? t (delimiterAt t) (p + 1) with
      | none => rfl
      | some q =>
        have hq := le_of_first? hf
        rw [Option.map_some, Option.map_some, slice_eq_cons hp (by omega)]
        rfl

theorem drop_indentAfter (i : Nat) :
    (t.drop i).dropWhile Text.isIndent = t.drop (i + indentAfter t i) := by
  have h := List.takeWhile_append_dropWhile (p := Text.isIndent) (l := t.drop i)
  have h' := congrArg (List.drop (indentAfter t i)) h
  rwa [indentAfter, List.drop_left, List.drop_drop] at h'

theorem slice_indentAfter {i : Nat} (h : delimiterAt t (i + indentAfter t i) = true) :
    slice t i (i + indentAfter t i + 3) = (t.drop i).takeWhile Text.isIndent ++ delimiter := by
  have hd : (t.drop (i + indentAfter t i)).take 3 = delimiter := by simpa [delimiterAt] using h
  rw [← drop_indentAfter] at hd
  have hlen : i + indentAfter t i + 3 = i + (indentAfter t i + 3) := by omega
  rw [slice, hlen, List.drop_take, Nat.add_sub_cancel_left, ← hd]
  conv_lhs => rw [← List.takeWhile_append_dropWhile (p := Text.isIndent) (l := t.drop i)]
  rw [indentAfter, List.take_length_add_append]

theorem delimiterLine?_drop (i : Nat) : Fence.delimiterLine? (t.drop i) =
    if delimiterAt t (i + indentAfter t i) then
      some (slice t i (i + indentAfter t i + 3), t.drop (i + indentAfter t i + 3))
    else none := by
  rw [Fence.delimiterLine?, drop_indentAfter, after?_delimiter_drop]
  by_cases h : delimiterAt t (i + indentAfter t i) = true
  · rw [if_pos h, if_pos h, slice_indentAfter h]
    rfl
  · rw [if_neg h, if_neg h]
    rfl

/-- The first line from a position on that begins with a delimiter. -/
theorem closing?_drop (p : Nat) : Fence.closing? (t.drop p) =
    (first? t (closesAt t) (p + 1)).map fun l =>
      (slice t p (l + indentAfter t l + 3), t.drop (l + indentAfter t l + 3)) := by
  induction h : t.length - p generalizing p with
  | zero =>
    have hlen : t.length - (p + 1) = 0 := by omega
    rw [List.drop_eq_nil_of_le (by omega), first?, hlen]
    rfl
  | succ n ih =>
    have hp : p < t.length := by omega
    rw [first?_eq lt_of_closesAt, List.drop_eq_getElem_cons hp]
    have hc : closesAt t (p + 1) = true ↔
        t[p] = '\n' ∧ delimiterAt t (p + 1 + indentAfter t (p + 1)) = true := by
      simp [closesAt, List.getElem?_eq_getElem hp]
    by_cases hclose : closesAt t (p + 1) = true
    · obtain ⟨hn, hd⟩ := hc.1 hclose
      have hline := delimiterLine?_drop (t := t) (p + 1)
      rw [if_pos hd] at hline
      rw [if_pos hclose, hn, Fence.closing?_newline_of_some hline, Option.map_some,
        slice_eq_cons hp (by omega), hn]
    · have hnone : t[p] = '\n' → Fence.delimiterLine? (t.drop (p + 1)) = none := by
        intro hn
        rw [delimiterLine?_drop, if_neg fun hd => hclose (hc.2 ⟨hn, hd⟩)]
      rw [if_neg hclose, Fence.closing?_cons_of_none hnone, ih (p + 1) (by omega), Option.map_map]
      cases hf : first? t (closesAt t) (p + 1 + 1) with
      | none => rfl
      | some l =>
        have hl := le_of_first? hf
        rw [Option.map_some, Option.map_some, slice_eq_cons hp (by omega)]
        rfl

theorem slice_append {i j k : Nat} (hij : i ≤ j) (hjk : j ≤ k) (hk : k ≤ t.length) :
    slice t i j ++ slice t j k = slice t i k := by
  have hj : t.take j = (t.take k).take j := by
    rw [List.take_take, Nat.min_eq_left hjk]
  have hlen : i ≤ ((t.take k).take j).length := by
    rw [List.length_take, List.length_take]
    omega
  rw [slice, slice, slice, hj, ← List.drop_append_of_le_length hlen, List.take_append_drop]

theorem length_slice {i j : Nat} (hj : j ≤ t.length) : (slice t i j).length = j - i := by
  rw [slice, List.length_drop, List.length_take, Nat.min_eq_left hj]

theorem indentBefore_le {p q : Nat} (hq : q ≤ t.length) : indentBefore t p q ≤ q - p := by
  rw [← length_slice hq, ← List.length_reverse]
  exact (List.takeWhile_prefix _).length_le

/-- The spaces and tabs at the end of a slice. -/
theorem endWhile_slice {p q : Nat} (hpq : p ≤ q) (hq : q ≤ t.length) :
    Text.dropEndWhile Text.isIndent (slice t p q) = slice t p (q - indentBefore t p q) ∧
      Text.takeEndWhile Text.isIndent (slice t p q) = slice t (q - indentBefore t p q) q := by
  have hle := indentBefore_le (p := p) hq
  have h := Text.dropEndWhile_append_takeEndWhile Text.isIndent (slice t p q)
  have hslice : slice t p (q - indentBefore t p q) ++ slice t (q - indentBefore t p q) q =
      slice t p q := slice_append (by omega) (by omega) hq
  apply List.append_inj' (h.trans hslice.symm)
  rw [length_slice hq, Text.takeEndWhile, List.length_reverse]
  change indentBefore t p q = _
  omega

theorem next?_drop (p : Nat) : Fence.next? (t.drop p) =
    (first? t (delimiterAt t) p).bind fun q => (first? t (closesAt t) (q + 4)).map fun l =>
      (slice t p (q - indentBefore t p q),
        ⟨slice t (q - indentBefore t p q) q, slice t (q + 3) (l + indentAfter t l + 3)⟩,
        t.drop (l + indentAfter t l + 3)) := by
  rw [Fence.next?, cut?_drop]
  cases hq : first? t (delimiterAt t) p with
  | none => rfl
  | some q =>
    obtain ⟨hpq, hlt⟩ := le_of_first? hq
    obtain ⟨hdrop, htake⟩ := endWhile_slice hpq hlt.le
    simp only [Option.map_some, Option.bind_some, closing?_drop, Option.map_map, hdrop, htake]
    rfl

theorem add_three_le_of_delimiterAt {i : Nat} (h : delimiterAt t i = true) : i + 3 ≤ t.length := by
  have hd : (t.drop i).take 3 = delimiter := by simpa [delimiterAt] using h
  have hlen := congrArg List.length hd
  rw [List.length_take, List.length_drop] at hlen
  have hthree : delimiter.length = 3 := rfl
  omega

/-- The texts up to the beginning and the end of the block that is found from a position on. -/
theorem take_of_next?_drop {p start stop : Nat} {f : Fence} (hp : p ≤ start)
    (hs : start ≤ t.length)
    (h : Fence.next? (t.drop p) = some (slice t p start, f, t.drop stop)) :
    t.take start = t.take p ++ slice t p start ∧ t.take stop = t.take start ++ f.raw := by
  have hstart : t.take start = t.take p ++ slice t p start :=
    (slice_append (Nat.zero_le p) hp hs).symm
  have hend : t.take stop ++ t.drop stop = t.take start ++ f.raw ++ t.drop stop := by
    rw [hstart, List.append_assoc (t.take p), List.append_assoc (t.take p),
      ← Fence.eq_append_of_next? h, List.take_append_drop, List.take_append_drop]
  exact ⟨hstart, List.append_cancel_right hend⟩

/-- From any position on, the scanner finds the blocks of the text behind it. -/
theorem fencesFrom_eq (p : Nat) (hp : p ≤ t.length) :
    fencesFrom t p =
      Layout.placedFrom (Text.byteSize (t.take p)) (Layout.ofText (t.drop p)).blocks := by
  fun_induction fencesFrom t p with
  | case1 p hopen =>
    have hnone := next?_drop (t := t) p
    rw [hopen] at hnone
    rw [Layout.ofText_of_next?_eq_none hnone]
    rfl
  | case2 p q hopen hclose =>
    have hnone := next?_drop (t := t) p
    rw [hopen, Option.bind_some, hclose] at hnone
    rw [Layout.ofText_of_next?_eq_none hnone]
    rfl
  | case3 p q hopen l hclose start stop ih =>
    have hsome := next?_drop (t := t) p
    rw [hopen, Option.bind_some, hclose, Option.map_some] at hsome
    obtain ⟨hpq, hq⟩ := le_of_first? hopen
    have hle := indentBefore_le (p := p) hq.le
    have hclosing := List.find?_some hclose
    rw [closesAt, Bool.and_eq_true] at hclosing
    have hstop : stop ≤ t.length := add_three_le_of_delimiterAt hclosing.2
    obtain ⟨hstart, hend⟩ := take_of_next?_drop (by omega) (by omega) hsome
    rw [ih hstop, Layout.ofText_of_next?_eq_some hsome, Layout.placedFrom, hend, hstart]
    simp only [Text.byteSize_append]
    rfl

end Scanner
end FenceSync
