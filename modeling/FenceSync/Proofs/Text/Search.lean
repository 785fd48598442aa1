import FenceSync.Text.Basic
import Mathlib.Data.List.Infix
import Mathlib.Data.List.TakeWhile
/-!
# Searching a text

What the searches say about infixes: `after?` answers for a prefix, `cut?` for the first occurrence,
and the place of a first occurrence does not depend on the text behind it.
-/
namespace FenceSync.Text

/-- What holds of all characters of a text is decided by going through the text, not through all
characters. -/
instance (p : Char → Prop) [DecidablePred p] (t : Text) : Decidable (∀ c ∈ t, p c) :=
  List.decidableBAll p t

theorem after?_eq_none_iff {p t : Text} : after? p t = none ↔ ¬ p <+: t := by
  rw [Option.eq_none_iff_forall_ne_some]
  constructor
  · rintro h ⟨r, rfl⟩
    exact h r (after?_append p r)
  · intro h r hr
    exact h ⟨r, (eq_append_of_after? hr).symm⟩

/-- A prefix cannot reach past a character that it does not have. -/
theorem prefix_append_cons_iff {p u s : Text} {c : Char} (hp : c ∉ p) :
    p <+: u ++ c :: s ↔ p <+: u := by
  rcases Nat.lt_or_ge u.length p.length with hl | hl
  · constructor
    · intro h
      rw [List.append_cons] at h
      have hup : u ++ [c] <+: p :=
        List.prefix_of_prefix_length_le (List.prefix_append (u ++ [c]) s) h (by simp; omega)
      exact absurd (hup.subset (by simp)) hp
    · exact fun h => h.trans (List.prefix_append u (c :: s))
  · exact List.isPrefix_append_of_length hl

theorem after?_append_cons {p : Text} {c : Char} (hp : c ∉ p) (u s : Text) :
    after? p (u ++ c :: s) = (after? p u).map (· ++ c :: s) := by
  cases h : after? p u with
  | some r =>
    rw [eq_append_of_after? h, List.append_assoc, after?_append]
    rfl
  | none =>
    rw [after?_eq_none_iff] at h
    rw [Option.map_none, after?_eq_none_iff, prefix_append_cons_iff hp]
    exact h

theorem cut?_eq_none_iff {p t : Text} : cut? p t = none ↔ ¬ p <:+: t := by
  induction t with
  | nil => rw [cut?, Option.map_eq_none_iff, after?_eq_none_iff, List.prefix_nil, List.infix_nil]
  | cons c t ih =>
    rw [List.infix_cons_iff, not_or, cut?, ← ih, ← after?_eq_none_iff]
    cases after? p (c :: t) <;> simp

theorem contains_iff {p t : Text} : contains p t = true ↔ p <:+: t := by
  rw [contains, Option.isSome_iff_ne_none, ne_eq, cut?_eq_none_iff, not_not]

theorem startsWith_iff {p t : Text} : startsWith p t = true ↔ p <+: t := by
  rw [startsWith, Option.isSome_iff_ne_none, ne_eq, after?_eq_none_iff, not_not]

theorem cut?_of_after? {p t r : Text} (h : after? p t = some r) : cut? p t = some ([], r) := by
  cases t with
  | nil => simp [cut?, h]
  | cons c t => simp [cut?, h]

/-- There is no occurrence in front of the first one. -/
theorem not_infix_of_cut? {p t b r : Text} (hp : p ≠ []) (h : cut? p t = some (b, r)) :
    ¬ p <:+: b := by
  induction t generalizing b with
  | nil =>
    obtain ⟨r', -, he⟩ := Option.map_eq_some_iff.1 h
    cases he
    rwa [List.infix_nil]
  | cons c t ih =>
    simp only [cut?] at h
    split at h
    · cases h
      rwa [List.infix_nil]
    · next hn =>
      obtain ⟨⟨b', r'⟩, h', he⟩ := Option.map_eq_some_iff.1 h
      cases he
      rw [List.infix_cons_iff, not_or]
      refine ⟨fun hb => after?_eq_none_iff.1 hn (hb.trans ?_), ih h'⟩
      rw [eq_append_of_cut? h', List.append_assoc, ← List.cons_append]
      exact List.prefix_append _ _

/-- No occurrence reaches over a character that the pattern does not have. -/
theorem cut?_append_cons {p u : Text} {c : Char} (hp : c ∉ p) (hu : ¬ p <:+: u) (s : Text) :
    cut? p (u ++ c :: s) = (cut? p s).map fun (b, r) => (u ++ c :: b, r) := by
  induction u with
  | nil =>
    have hafter := after?_append_cons hp [] s
    rw [after?_eq_none_iff.2 fun h => hu h.isInfix] at hafter
    rw [List.nil_append] at hafter ⊢
    rw [cut?, hafter]
    rfl
  | cons a u ih =>
    have hafter := after?_append_cons hp (a :: u) s
    rw [after?_eq_none_iff.2 fun h => hu h.isInfix] at hafter
    rw [List.cons_append] at hafter ⊢
    rw [cut?, hafter, ih fun h => hu (List.infix_cons h)]
    simp [Option.map_map, Function.comp_def]

/-- The text behind the first occurrence may be any. -/
theorem cut?_append {p t b r : Text} (h : cut? p t = some (b, r)) (s : Text) :
    cut? p (b ++ p ++ s) = some (b, s) := by
  induction t generalizing b with
  | nil =>
    obtain ⟨r', h', he⟩ := Option.map_eq_some_iff.1 h
    cases he
    exact cut?_of_after? (after?_append p s)
  | cons c t ih =>
    simp only [cut?] at h
    split at h
    · cases h
      exact cut?_of_after? (after?_append p s)
    · next hn =>
      obtain ⟨⟨b', r'⟩, h', he⟩ := Option.map_eq_some_iff.1 h
      cases he
      have hnone : after? p (c :: (b' ++ p ++ s)) = none := by
        have hl : p.length ≤ (c :: (b' ++ p)).length := by simp; omega
        rw [eq_append_of_cut? h', after?_eq_none_iff, ← List.cons_append,
          List.isPrefix_append_of_length hl] at hn
        rw [after?_eq_none_iff, ← List.cons_append, List.isPrefix_append_of_length hl]
        exact hn
      simp only [List.cons_append, cut?, hnone, ih h', Option.map_some]

/-- A search passes over characters at which its recogniser never answers. -/
theorem firstMatch?_append {α : Type} {f : Text → Option α} {u : Text}
    (hu : ∀ c ∈ u, ∀ t, f (c :: t) = none) (t : Text) :
    firstMatch? f (u ++ t) = firstMatch? f t := by
  induction u with
  | nil => rw [List.nil_append]
  | cons c u ih =>
    rw [List.cons_append, firstMatch?, hu c List.mem_cons_self]
    exact ih fun a ha => hu a (List.mem_cons_of_mem _ ha)

theorem firstMatch?_eq_none_iff {α : Type} {f : Text → Option α} {t : Text} :
    firstMatch? f t = none ↔ ∀ x y : Text, t = x ++ y → f y = none := by
  induction t with
  | nil => simp [firstMatch?]
  | cons c t ih =>
    rw [firstMatch?]
    constructor
    · intro h x y hxy
      split at h
      · cases h
      · next hn =>
        rcases List.cons_eq_append_iff.1 hxy with ⟨-, rfl⟩ | ⟨x, -, rfl⟩
        · exact hn
        · exact ih.1 h x y rfl
    · intro h
      rw [h [] (c :: t) rfl]
      apply ih.2
      rintro x y rfl
      exact h (c :: x) y rfl

/-- A search answers at the first place where its recogniser does. -/
theorem firstMatch?_eq_some_iff {α : Type} {f : Text → Option α} {t : Text} {a : α} :
    firstMatch? f t = some a ↔ ∃ u v : Text, t = u ++ v ∧ f v = some a ∧
      ∀ x y : Text, t = x ++ y → x.length < u.length → f y = none := by
  induction t with
  | nil =>
    constructor
    · exact fun h => ⟨[], [], rfl, h, by simp⟩
    · rintro ⟨u, v, huv, hv, -⟩
      obtain ⟨-, rfl⟩ := List.append_eq_nil_iff.1 huv.symm
      exact hv
  | cons c t ih =>
    rw [firstMatch?]
    split
    · next b hb =>
      constructor
      · rintro ⟨⟩
        exact ⟨[], c :: t, rfl, hb, by simp⟩
      · rintro ⟨u, v, huv, hv, hfirst⟩
        rcases List.cons_eq_append_iff.1 huv with ⟨-, rfl⟩ | ⟨u, rfl, -⟩
        · rw [← hb, hv]
        · rw [hfirst [] (c :: t) rfl (by simp)] at hb
          cases hb
    · next hn =>
      rw [ih]
      constructor
      · rintro ⟨u, v, rfl, hv, hfirst⟩
        refine ⟨c :: u, v, rfl, hv, fun x y hxy hlt => ?_⟩
        rcases List.cons_eq_append_iff.1 hxy with ⟨-, rfl⟩ | ⟨x, rfl, htail⟩
        · exact hn
        · exact hfirst x y htail (by simpa using hlt)
      · rintro ⟨u, v, huv, hv, hfirst⟩
        rcases List.cons_eq_append_iff.1 huv with ⟨-, rfl⟩ | ⟨u, rfl, rfl⟩
        · rw [hn] at hv
          cases hv
        · refine ⟨u, v, rfl, hv, fun x y hxy hlt => ?_⟩
          exact hfirst (c :: x) y (by rw [hxy, List.cons_append]) (by simpa using hlt)

/-- The answer of a search, where what the recogniser accepts is known as a relation. -/
theorem firstMatch?_eq_some_iff_of_accepts {α : Type} {f : Text → Option α}
    {accepts : Text → α → Prop} (hf : ∀ t a, f t = some a ↔ accepts t a) {t : Text} {a : α} :
    firstMatch? f t = some a ↔ ∃ u v : Text, t = u ++ v ∧ accepts v a ∧
      ∀ x y : Text, t = x ++ y → x.length < u.length → ∀ b, ¬accepts y b := by
  have hnone (y : Text) : f y = none ↔ ∀ b, ¬accepts y b := by
    simp only [Option.eq_none_iff_forall_ne_some, Ne, hf]
  simp only [firstMatch?_eq_some_iff, hf, hnone]

theorem exists_of_firstMatch? {α : Type} {f : Text → Option α} {t : Text} {a : α}
    (h : firstMatch? f t = some a) : ∃ u v : Text, t = u ++ v ∧ f v = some a := by
  obtain ⟨u, v, huv, hv, -⟩ := firstMatch?_eq_some_iff.1 h
  exact ⟨u, v, huv, hv⟩

theorem firstMatch?_append_right {α : Type} {f : Text → Option α} {u : Text}
    (hu : ∀ c ∈ u, ∀ t, f (c :: t) = none) (h : ∀ t, f (t ++ u) = f t) (t : Text) :
    firstMatch? f (t ++ u) = firstMatch? f t := by
  induction t with
  | nil =>
    have h' := firstMatch?_append hu []
    rwa [List.append_nil] at h'
  | cons c t ih =>
    have hc := h (c :: t)
    rw [List.cons_append] at hc
    rw [List.cons_append, firstMatch?, firstMatch?, hc, ih]

section

variable {p : Char → Bool} {a b : Text} (ha : ∀ c ∈ a, p c = true)
  (hb : ∀ c ∈ b.head?, p c = false)

include ha hb

theorem takeWhile_append : (a ++ b).takeWhile p = a := by
  rw [List.takeWhile_append_of_pos ha]
  cases b with
  | nil => exact List.append_nil a
  | cons c b => rw [List.takeWhile_cons_of_neg (by simp [hb c rfl]), List.append_nil]

theorem dropWhile_append : (a ++ b).dropWhile p = b := by
  rw [List.dropWhile_append_of_pos ha]
  cases b with
  | nil => rfl
  | cons c b => exact List.dropWhile_cons_of_neg (by simp [hb c rfl])

end

theorem forall_mem_takeEndWhile {p : Char → Bool} {t : Text} :
    ∀ c ∈ takeEndWhile p t, p c = true := by
  intro c hc
  rw [takeEndWhile, List.mem_reverse] at hc
  exact List.mem_takeWhile_imp hc

theorem getLast?_dropEndWhile {p : Char → Bool} {t : Text} :
    ∀ c ∈ (dropEndWhile p t).getLast?, p c = false := by
  intro c hc
  rw [dropEndWhile, List.getLast?_reverse] at hc
  have h := List.head?_dropWhile_not p t.reverse
  rw [hc] at h
  exact h

theorem takeEndWhile_append {p : Char → Bool} {a b : Text} (ha : ∀ c ∈ a.getLast?, p c = false)
    (hb : ∀ c ∈ b, p c = true) : takeEndWhile p (a ++ b) = b := by
  rw [takeEndWhile, List.reverse_append, List.takeWhile_append_of_pos (by simpa using hb)]
  have h : a.reverse.takeWhile p = [] := by
    cases h' : a.reverse with
    | nil => rfl
    | cons c r =>
      have hc : a.getLast? = some c := by rw [← List.head?_reverse, h', List.head?_cons]
      rw [List.takeWhile_cons_of_neg (by simp [ha c hc])]
  rw [h, List.append_nil, List.reverse_reverse]

theorem takeEndWhile_append_of_pos {p : Char → Bool} {b : Text} (hb : ∀ c ∈ b, p c = true)
    (a : Text) : takeEndWhile p (a ++ b) = takeEndWhile p a ++ b := by
  rw [takeEndWhile, List.reverse_append, List.takeWhile_append_of_pos (by simpa using hb),
    List.reverse_append, List.reverse_reverse, takeEndWhile]

theorem dropEndWhile_append {p : Char → Bool} {a b : Text} (ha : ∀ c ∈ a.getLast?, p c = false)
    (hb : ∀ c ∈ b, p c = true) : dropEndWhile p (a ++ b) = a := by
  have h := dropEndWhile_append_takeEndWhile p (a ++ b)
  rw [takeEndWhile_append ha hb] at h
  exact List.append_cancel_right h

end FenceSync.Text
