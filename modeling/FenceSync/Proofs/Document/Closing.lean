import FenceSync.Proofs.Text.Search
import FenceSync.Document.Fence
import Mathlib.Data.List.TakeWhile
/-!
# Closing delimiters

`closing?` stops at the first delimiter that begins a line. What it has read is closed: it stops at
the same place whatever text follows. A text without such a delimiter can be read past, line by line.
-/
namespace FenceSync.Fence

theorem isIndent_of_mem_delimiter : ∀ c ∈ delimiter, Text.isIndent c = false := by
  simp [delimiter, Text.isIndent]

def StopsDelimiter (c : Char) : Prop := Text.isIndent c = false ∧ c ∉ delimiter

theorem stopsDelimiter_newline : StopsDelimiter '\n' := by unfold StopsDelimiter; decide

theorem stopsDelimiter_return : StopsDelimiter '\r' := by unfold StopsDelimiter; decide

section

variable {i : Text} (hi : ∀ c ∈ i, Text.isIndent c = true) (r : Text)

include hi

theorem takeWhile_delimiter : (i ++ delimiter ++ r).takeWhile Text.isIndent = i := by
  rw [List.append_assoc]
  exact Text.takeWhile_append hi (by rintro _ ⟨⟩; rfl)

theorem dropWhile_delimiter : (i ++ delimiter ++ r).dropWhile Text.isIndent = delimiter ++ r := by
  rw [List.append_assoc]
  exact Text.dropWhile_append hi (by rintro _ ⟨⟩; rfl)

theorem delimiterLine?_append : delimiterLine? (i ++ delimiter ++ r) = some (i ++ delimiter, r) := by
  rw [delimiterLine?, takeWhile_delimiter hi, dropWhile_delimiter hi, Text.after?_append]
  rfl

end

theorem delimiterLine?_eq_some_iff {t d r : Text} : delimiterLine? t = some (d, r) ↔
    ∃ i : Text, (∀ c ∈ i, Text.isIndent c = true) ∧ d = i ++ delimiter ∧ t = d ++ r := by
  constructor
  · intro h
    have heq := eq_append_of_delimiterLine? h
    obtain ⟨r', -, he⟩ := Option.map_eq_some_iff.1 h
    cases he
    exact ⟨_, fun c hc => List.mem_takeWhile_imp hc, rfl, heq⟩
  · rintro ⟨i, hi, rfl, rfl⟩
    exact delimiterLine?_append hi r

/-- Whether a line begins with a delimiter is settled before a character that stops it. -/
theorem delimiterLine?_append_cons {c : Char} (hc : StopsDelimiter c) (u s : Text) :
    delimiterLine? (u ++ c :: s) = (delimiterLine? u).map fun (d, r) => (d, r ++ c :: s) := by
  obtain ⟨hi, hd⟩ := hc
  by_cases hu : ∀ a ∈ u, Text.isIndent a = true
  · have h1 : (u ++ c :: s).dropWhile Text.isIndent = c :: s := by
      rw [List.dropWhile_append_of_pos hu, List.dropWhile_cons_of_neg (by simp [hi])]
    have h2 : Text.after? delimiter (c :: s) = none := by
      rw [← List.nil_append (c :: s), Text.after?_append_cons hd]
      rfl
    have h3 : u.dropWhile Text.isIndent = [] := List.dropWhile_eq_nil_iff.2 hu
    rw [delimiterLine?, delimiterLine?, h1, h2, h3]
    rfl
  · have hne : u.dropWhile Text.isIndent ≠ [] := fun h => hu (List.dropWhile_eq_nil_iff.1 h)
    have h1 : (u ++ c :: s).dropWhile Text.isIndent = u.dropWhile Text.isIndent ++ c :: s := by
      rw [List.dropWhile_append, if_neg (by simpa using hne)]
    have h2 : (u ++ c :: s).takeWhile Text.isIndent = u.takeWhile Text.isIndent := by
      rw [List.takeWhile_append, if_neg]
      intro hl
      have hp : u.takeWhile Text.isIndent <+: u := List.takeWhile_prefix _
      exact hne (List.dropWhile_eq_nil_iff.2 fun a ha => by
        rw [← hp.eq_of_length hl] at ha
        exact List.mem_takeWhile_imp ha)
    rw [delimiterLine?, delimiterLine?, h1, h2, Text.after?_append_cons hd]
    cases Text.after? delimiter (u.dropWhile Text.isIndent) <;> rfl

theorem closing?_cons_of_ne {c : Char} (hc : c ≠ '\n') (t : Text) :
    closing? (c :: t) = (closing? t).map fun (i, r) => (c :: i, r) := by
  rw [closing?, if_neg hc]

theorem closing?_newline_of_some {t d r : Text} (h : delimiterLine? t = some (d, r)) :
    closing? ('\n' :: t) = some ('\n' :: d, r) := by
  rw [closing?, if_pos rfl, h]

theorem closing?_newline_of_none {t : Text} (h : delimiterLine? t = none) :
    closing? ('\n' :: t) = (closing? t).map fun (i, r) => ('\n' :: i, r) := by
  rw [closing?, if_pos rfl, h]

/-- The three ways in which a closing delimiter is found. -/
theorem closing?_cons_cases {c : Char} {t i r : Text} (h : closing? (c :: t) = some (i, r)) :
    (c = '\n' ∧ ∃ d, delimiterLine? t = some (d, r) ∧ i = c :: d) ∨
      ((c = '\n' → delimiterLine? t = none) ∧ ∃ i', closing? t = some (i', r) ∧ i = c :: i') := by
  by_cases hc : c = '\n'
  · subst hc
    cases hd : delimiterLine? t with
    | some x =>
      rw [closing?_newline_of_some hd] at h
      cases h
      exact .inl ⟨rfl, _, rfl, rfl⟩
    | none =>
      rw [closing?_newline_of_none hd] at h
      obtain ⟨⟨i', r'⟩, h', he⟩ := Option.map_eq_some_iff.1 h
      cases he
      exact .inr ⟨fun _ => rfl, i', h', rfl⟩
  · rw [closing?_cons_of_ne hc] at h
    obtain ⟨⟨i', r'⟩, h', he⟩ := Option.map_eq_some_iff.1 h
    cases he
    exact .inr ⟨fun h => absurd h hc, i', h', rfl⟩

theorem closing?_cons_of_none {c : Char} {t : Text} (h : c = '\n' → delimiterLine? t = none) :
    closing? (c :: t) = (closing? t).map fun (i, r) => (c :: i, r) := by
  by_cases hc : c = '\n'
  · subst hc
    exact closing?_newline_of_none (h rfl)
  · exact closing?_cons_of_ne hc t

theorem newline_mem_of_closing? {t i r : Text} (h : closing? t = some (i, r)) : '\n' ∈ i := by
  induction t generalizing i with
  | nil => simp [closing?] at h
  | cons c t ih =>
    rcases closing?_cons_cases h with ⟨rfl, d, -, rfl⟩ | ⟨-, i', h', rfl⟩
    · exact List.mem_cons_self
    · exact List.mem_cons_of_mem _ (ih h')

/-- On a text with a line feed, whether it begins with a delimiter does not depend on what follows. -/
theorem delimiterLine?_append_eq_none {t : Text} (hn : '\n' ∈ t) (h : delimiterLine? t = none)
    (s : Text) : delimiterLine? (t ++ s) = none := by
  obtain ⟨a, b, rfl⟩ := List.append_of_mem hn
  rw [delimiterLine?_append_cons stopsDelimiter_newline, Option.map_eq_none_iff] at h
  rw [List.append_assoc, List.cons_append, delimiterLine?_append_cons stopsDelimiter_newline, h]
  rfl

theorem closing?_append {t i r : Text} (h : closing? t = some (i, r)) (s : Text) :
    closing? (t ++ s) = some (i, r ++ s) := by
  induction t generalizing i with
  | nil => simp [closing?] at h
  | cons c t ih =>
    rw [List.cons_append]
    rcases closing?_cons_cases h with ⟨rfl, d, hd, rfl⟩ | ⟨hd, i', h', rfl⟩
    · obtain ⟨i, hi, rfl, rfl⟩ := delimiterLine?_eq_some_iff.1 hd
      rw [List.append_assoc, closing?_newline_of_some (delimiterLine?_append hi _)]
    · have hn : '\n' ∈ t := by
        rw [eq_append_of_closing? h']
        exact List.mem_append_left _ (newline_mem_of_closing? h')
      rw [closing?_cons_of_none fun hc => delimiterLine?_append_eq_none hn (hd hc) s, ih h']
      rfl

/-- The inside of a block: its only closing delimiter is at its end. -/
def Closed (inside : Text) : Prop := closing? inside = some (inside, [])

instance (inside : Text) : Decidable (Closed inside) :=
  inferInstanceAs (Decidable (closing? inside = some (inside, [])))

theorem Closed.closing?_append {i : Text} (h : Closed i) (r : Text) :
    closing? (i ++ r) = some (i, r) :=
  Fence.closing?_append h r

theorem closed_of_closing? {t i r : Text} (h : closing? t = some (i, r)) : Closed i := by
  induction t generalizing i with
  | nil => simp [closing?] at h
  | cons c t ih =>
    rcases closing?_cons_cases h with ⟨rfl, d, hd, rfl⟩ | ⟨hd, i', h', rfl⟩
    · obtain ⟨i, hi, rfl, rfl⟩ := delimiterLine?_eq_some_iff.1 hd
      have hd' := delimiterLine?_append hi []
      rw [List.append_nil] at hd'
      exact closing?_newline_of_some hd'
    · have hnone : c = '\n' → delimiterLine? i' = none := by
        intro hc
        rw [Option.eq_none_iff_forall_ne_some]
        rintro ⟨d, s⟩ hds
        obtain ⟨j, hj, rfl, rfl⟩ := delimiterLine?_eq_some_iff.1 hds
        have h1 := hd hc
        rw [eq_append_of_closing? h', List.append_assoc, delimiterLine?_append hj] at h1
        cases h1
      have hi' : closing? i' = some (i', []) := ih h'
      rw [Closed, closing?_cons_of_none hnone, hi']
      rfl

theorem closing?_eq_some_iff {t i r : Text} :
    closing? t = some (i, r) ↔ t = i ++ r ∧ Closed i := by
  constructor
  · exact fun h => ⟨eq_append_of_closing? h, closed_of_closing? h⟩
  · rintro ⟨rfl, h⟩
    exact h.closing?_append r

theorem closing?_eq_none_iff {t : Text} :
    closing? t = none ↔ ∀ a b : Text, t = a ++ '\n' :: b → delimiterLine? b = none := by
  induction t with
  | nil => simp [closing?]
  | cons c t ih =>
    constructor
    · intro h a b hab
      have hd : c = '\n' → delimiterLine? t = none := by
        rintro rfl
        rw [Option.eq_none_iff_forall_ne_some]
        rintro ⟨d, r⟩ hd
        rw [closing?_newline_of_some hd] at h
        cases h
      rw [closing?_cons_of_none hd, Option.map_eq_none_iff, ih] at h
      rcases a with - | ⟨a, as⟩
      · obtain ⟨hc, rfl⟩ := List.cons.inj hab
        exact hd hc
      · exact h as b (List.cons.inj hab).2
    · intro h
      have hd : c = '\n' → delimiterLine? t = none := fun hc => h [] t (by rw [hc]; rfl)
      rw [closing?_cons_of_none hd, ih.2 fun a b hab => h (c :: a) b (by rw [hab]; rfl)]
      rfl

/-- A part of a text without closing delimiters has none. -/
theorem closing?_eq_none_of_isInfix {t s : Text} (ht : closing? t = none) (hs : s <:+: t) :
    closing? s = none := by
  obtain ⟨a, b, rfl⟩ := hs
  rw [closing?_eq_none_iff] at ht ⊢
  rintro x y rfl
  have h := ht (a ++ x) (y ++ b) (by simp)
  rw [Option.eq_none_iff_forall_ne_some] at h ⊢
  rintro ⟨d, r⟩ hd
  obtain ⟨j, hj, rfl, rfl⟩ := delimiterLine?_eq_some_iff.1 hd
  exact h _ (by rw [List.append_assoc, delimiterLine?_append hj])

theorem closing?_append_cons {u : Text} {c : Char} (hu : closing? u = none) (hc : StopsDelimiter c)
    (s : Text) :
    closing? (u ++ c :: s) = (closing? (c :: s)).map fun (i, r) => (u ++ i, r) := by
  induction u with
  | nil =>
    rw [List.nil_append]
    cases closing? (c :: s) <;> rfl
  | cons a u ih =>
    have hd : a = '\n' → delimiterLine? (u ++ c :: s) = none := by
      rintro rfl
      rw [delimiterLine?_append_cons hc, closing?_eq_none_iff.1 hu [] u rfl]
      rfl
    have hu' : closing? u = none := closing?_eq_none_of_isInfix hu (List.infix_cons List.infix_rfl)
    rw [List.cons_append, closing?_cons_of_none hd, ih hu']
    cases closing? (c :: s) <;> rfl

theorem closing?_append_break {u : Text} (hu : closing? u = none) (e : LineEnding) (s : Text) :
    closing? (u ++ e.text ++ s) = (closing? (e.text ++ s)).map fun (i, r) => (u ++ i, r) := by
  rw [List.append_assoc]
  cases e with
  | lf => exact closing?_append_cons hu stopsDelimiter_newline s
  | crlf => exact closing?_append_cons hu stopsDelimiter_return ('\n' :: s)

theorem closing?_break_of_some {s d r : Text} (hs : delimiterLine? s = some (d, r))
    (e : LineEnding) : closing? (e.text ++ s) = some (e.text ++ d, r) := by
  cases e with
  | lf => exact closing?_newline_of_some hs
  | crlf =>
    have h : closing? ('\r' :: '\n' :: s) = _ := closing?_cons_of_ne (by decide) _
    rw [closing?_newline_of_some hs] at h
    exact h

theorem closing?_break_of_none {s : Text} (hs : delimiterLine? s = none) (e : LineEnding) :
    closing? (e.text ++ s) = (closing? s).map fun (i, r) => (e.text ++ i, r) := by
  cases e with
  | lf => exact closing?_newline_of_none hs
  | crlf =>
    have h : closing? ('\r' :: '\n' :: s) = _ := closing?_cons_of_ne (by decide) _
    rw [closing?_newline_of_none hs, Option.map_map] at h
    exact h

/-- A line that begins with a delimiter closes what came before. -/
theorem closing?_append_break_of_some {u s d r : Text} (hu : closing? u = none) (e : LineEnding)
    (hs : delimiterLine? s = some (d, r)) :
    closing? (u ++ e.text ++ s) = some (u ++ e.text ++ d, r) := by
  rw [closing?_append_break hu, closing?_break_of_some hs, Option.map_some, List.append_assoc]

/-- A line that does not begin with a delimiter is read past. -/
theorem closing?_append_break_eq_none {u s : Text} (hu : closing? u = none) (e : LineEnding)
    (hs : delimiterLine? s = none) (hs' : closing? s = none) :
    closing? (u ++ e.text ++ s) = none := by
  rw [closing?_append_break hu, closing?_break_of_none hs, hs']
  rfl

theorem closing?_eq_none_of_no_delimiter {t : Text} (h : ¬ delimiter <:+: t) : closing? t = none := by
  rw [closing?_eq_none_iff]
  rintro a b rfl
  rw [Option.eq_none_iff_forall_ne_some]
  rintro ⟨d, r⟩ hd
  obtain ⟨i, -, rfl, rfl⟩ := delimiterLine?_eq_some_iff.1 hd
  exact h ⟨a ++ '\n' :: i, r, by simp⟩

theorem delimiterLine?_eq_none_of_no_delimiter {t : Text} (h : ¬ delimiter <:+: t) :
    delimiterLine? t = none := by
  rw [Option.eq_none_iff_forall_ne_some]
  rintro ⟨d, r⟩ hd
  obtain ⟨i, -, rfl, rfl⟩ := delimiterLine?_eq_some_iff.1 hd
  exact h ⟨i, r, rfl⟩

end FenceSync.Fence
