import FenceSync.Directive.Target
import FenceSync.Proofs.Text.Decimal
import FenceSync.Proofs.Text.Search
/-!
# What a reference is read as

A path without blanks and number signs is read back, alone or with a range of lines behind it, and
whatever else holds a number sign is refused. But a range is found wherever it stands: the text
behind it is dropped, and its numbers are understood in ASCII digits only.
-/
namespace FenceSync

/-- The number counts as it is written, in whatever script. -/
def LineRange.Understood (digits : Text) : Prop :=
  (∀ c ∈ digits, Text.isAsciiDigit c = true) ∨ limit ≤ Text.digitsValue digits

instance (digits : Text) : Decidable (LineRange.Understood digits) :=
  inferInstanceAs (Decidable (_ ∨ _))

theorem LineRange.number_eq_iff {digits : Text} :
    number digits = min (Text.digitsValue digits) limit ↔ Understood digits := by
  by_cases h : ∀ c ∈ digits, Text.isAsciiDigit c = true
  · have hnumber : number digits = min (Text.digitsValue digits) limit := by
      rw [number, if_pos (List.all_eq_true.2 h), Text.digitsValue_eq_decimal h]
    exact iff_of_true hnumber (.inl h)
  · rw [number, if_neg fun hall => h (List.all_eq_true.1 hall), Understood, or_iff_right h]
    omega

/-- A number is read back from its digits. -/
theorem LineRange.number_spelled (i n : Nat) :
    number (List.replicate i '0' ++ Text.ofNat n) = min n limit := by
  have hdigits : ∀ c ∈ List.replicate i '0' ++ Text.ofNat n, Text.isAsciiDigit c = true :=
    fun c => Text.isAsciiDigit_of_mem_spelled
  rw [number, if_pos (List.all_eq_true.2 hdigits), Text.decimal_zeros_append, Text.decimal_ofNat]

namespace Target

def Digits (d : Text) : Prop := d ≠ [] ∧ ∀ c ∈ d, Text.isDigit c = true

def EndsDigits (rest : Text) : Prop := ∀ c ∈ rest.head?, Text.isDigit c = false

def rangeText (first last : Text) : Text := ['#', 'L'] ++ (first ++ (['-', 'L'] ++ last))

instance (d : Text) : Decidable (Digits d) :=
  inferInstanceAs (Decidable (_ ∧ _))

theorem endsDigits_nil : EndsDigits [] := by simp [EndsDigits]

instance : (rest : Text) → Decidable (EndsDigits rest)
  | [] => isTrue endsDigits_nil
  | c :: _ => decidable_of_iff (Text.isDigit c = false) (by simp [EndsDigits])

theorem digitsAfter?_eq_some_iff {letters t d r : Text} :
    digitsAfter? letters t = some (d, r) ↔ Digits d ∧ EndsDigits r ∧ t = letters ++ (d ++ r) := by
  rw [digitsAfter?, Option.bind_eq_some_iff]
  constructor
  · rintro ⟨s, hs, h⟩
    rw [Option.ite_none_left_eq_some] at h
    obtain ⟨hne, h⟩ := h
    cases h
    refine ⟨⟨by simpa using hne, fun c hc => ?_⟩, fun c hc => ?_, ?_⟩
    · exact List.mem_takeWhile_imp hc
    · have hhead := List.head?_dropWhile_not Text.isDigit s
      rw [hc] at hhead
      exact hhead
    · rw [List.takeWhile_append_dropWhile]
      exact Text.eq_append_of_after? hs
  · rintro ⟨⟨hne, hd⟩, hr, rfl⟩
    refine ⟨d ++ r, Text.after?_append letters (d ++ r), ?_⟩
    rw [Text.takeWhile_append hd hr, Text.dropWhile_append hd hr, if_neg (by simpa using hne)]

theorem digitsAfter?_append (letters : Text) {d r : Text} (hd : Digits d) (hr : EndsDigits r) :
    digitsAfter? letters (letters ++ (d ++ r)) = some (d, r) :=
  digitsAfter?_eq_some_iff.2 ⟨hd, hr, rfl⟩

theorem digitsAfter?_rangeText {first : Text} (hf : Digits first) (last rest : Text) :
    digitsAfter? ['#', 'L'] (rangeText first last ++ rest) =
      some (first, ['-', 'L'] ++ (last ++ rest)) := by
  have hhyphen : EndsDigits (['-', 'L'] ++ (last ++ rest)) := by
    rintro c ⟨⟩
    decide
  rw [rangeText, List.append_assoc, List.append_assoc, List.append_assoc]
  exact digitsAfter?_append ['#', 'L'] hf hhyphen

theorem range?_eq_some_iff {t : Text} {range : LineRange} : range? t = some range ↔
    ∃ first last rest, Digits first ∧ Digits last ∧ EndsDigits rest ∧
      t = rangeText first last ++ rest ∧
      range = ⟨LineRange.number first, LineRange.number last⟩ := by
  rw [range?, Option.bind_eq_some_iff]
  constructor
  · rintro ⟨⟨first, r⟩, hfirst, h⟩
    obtain ⟨⟨last, rest⟩, hlast, rfl⟩ := Option.map_eq_some_iff.1 h
    obtain ⟨hf, -, rfl⟩ := digitsAfter?_eq_some_iff.1 hfirst
    obtain ⟨hl, hr, rfl⟩ := digitsAfter?_eq_some_iff.1 hlast
    exact ⟨first, last, rest, hf, hl, hr, by simp [rangeText], rfl⟩
  · rintro ⟨first, last, rest, hf, hl, hr, rfl, rfl⟩
    refine ⟨_, digitsAfter?_rangeText hf last rest, ?_⟩
    simp only [digitsAfter?_append ['-', 'L'] hl hr, Option.map_some]

theorem head?_of_range? {t : Text} {range : LineRange} (h : range? t = some range) :
    t.head? = some '#' := by
  obtain ⟨first, last, rest, -, -, -, rfl, -⟩ := range?_eq_some_iff.1 h
  rfl

/-- What a range selects and where it ends can be told in one way. -/
theorem rangeText_append_inj {first last rest first' last' rest' : Text} (hf : Digits first)
    (hl : Digits last) (hr : EndsDigits rest) (hf' : Digits first') (hl' : Digits last')
    (hr' : EndsDigits rest') (h : rangeText first last ++ rest = rangeText first' last' ++ rest') :
    first = first' ∧ last = last' ∧ rest = rest' := by
  have hfirst := digitsAfter?_rangeText hf last rest
  rw [h, digitsAfter?_rangeText hf' last' rest', Option.some.injEq, Prod.mk.injEq] at hfirst
  obtain ⟨rfl, hafter⟩ := hfirst
  have hlast := digitsAfter?_append ['-', 'L'] hl hr
  rw [← hafter, digitsAfter?_append ['-', 'L'] hl' hr', Option.some.injEq,
    Prod.mk.injEq] at hlast
  exact ⟨rfl, hlast.1.symm, hlast.2.symm⟩

theorem atLineEnd_iff {t : Text} (ht : ∀ c ∈ t, Text.isBlank c = false) :
    atLineEnd t = true ↔ t = [] := by
  cases t with
  | nil => simp [atLineEnd]
  | cons c t =>
    have hc : c ≠ '\n' := by
      rintro rfl
      exact absurd (ht '\n' List.mem_cons_self) (by decide)
    simp [atLineEnd, hc]

/-- A path without number signs is found when a range follows it or nothing at all. -/
theorem ofWord?_append {p s : Text} (hp : p ≠ []) (hblank : ∀ c ∈ p, Text.isBlank c = false)
    (hsign : '#' ∉ p) (hs : s ≠ [] → (range? s).isSome = true) :
    ofWord? (p ++ s) = some ⟨p, range? s⟩ := by
  induction p with
  | nil => exact absurd rfl hp
  | cons c p ih =>
    obtain ⟨hc, hblank⟩ := List.forall_mem_cons.1 hblank
    rw [List.mem_cons, not_or] at hsign
    rw [List.cons_append, ofWord?, if_neg (by simp [hc])]
    cases p with
    | nil =>
      rw [List.nil_append]
      cases hrange : range? s with
      | some range => rfl
      | none =>
        have hnil : s = [] := by
          by_contra hne
          rw [hrange] at hs
          exact absurd (hs hne) (by decide)
        rw [hnil]
        rfl
    | cons d p =>
      have hrange : range? (d :: p ++ s) = none := by
        rw [Option.eq_none_iff_forall_ne_some]
        intro range h
        have hd : d = '#' := Option.some.inj (head?_of_range? h)
        exact hsign.2 (hd ▸ List.mem_cons_self)
      have hend : atLineEnd (d :: p ++ s) = false := by
        have hd : d ≠ '\n' := by
          rintro rfl
          exact absurd (hblank '\n' List.mem_cons_self) (by decide)
        simp [atLineEnd, hd]
      rw [hrange, hend, ih (List.cons_ne_nil d p) hblank hsign.2]
      rfl

section

variable {t : Text} (ht : ∀ c ∈ t, Text.isBlank c = false)

include ht

theorem exists_ofWord?_eq_some (hne : t ≠ []) : ∃ target, ofWord? t = some target := by
  induction t with
  | nil => exact absurd rfl hne
  | cons c t ih =>
    obtain ⟨hc, ht⟩ := List.forall_mem_cons.1 ht
    rw [ofWord?, if_neg (by simp [hc])]
    cases range? t with
    | some range => exact ⟨_, rfl⟩
    | none =>
      by_cases hnil : t = []
      · exact ⟨⟨[c], none⟩, by rw [if_pos ((atLineEnd_iff ht).2 hnil)]⟩
      · obtain ⟨target, h⟩ := ih ht hnil
        simp only [h, if_neg fun hend => hnil ((atLineEnd_iff ht).1 hend)]
        exact ⟨_, rfl⟩

/-- The path is a beginning of the word, and a range follows it unless it is the whole word. -/
theorem eq_append_of_ofWord? {target : Target} (h : ofWord? t = some target) :
    target.path ≠ [] ∧ ∃ s, t = target.path ++ s ∧ range? s = target.range ∧
      (target.range = none → s = []) := by
  induction t generalizing target with
  | nil => cases h
  | cons c t ih =>
    obtain ⟨hc, ht⟩ := List.forall_mem_cons.1 ht
    rw [ofWord?, if_neg (by simp [hc])] at h
    cases hrange : range? t with
    | some range =>
      rw [hrange] at h
      cases h
      exact ⟨List.cons_ne_nil c [], t, rfl, hrange, nofun⟩
    | none =>
      rw [hrange] at h
      by_cases hnil : t = []
      · rw [if_pos ((atLineEnd_iff ht).2 hnil)] at h
        cases h
        exact ⟨List.cons_ne_nil c [], t, rfl, hrange, fun _ => hnil⟩
      · simp only [if_neg fun hend => hnil ((atLineEnd_iff ht).1 hend)] at h
        obtain ⟨target, htarget, rfl⟩ := Option.map_eq_some_iff.1 h
        obtain ⟨-, s, hs, hrange, hend⟩ := ih ht htarget
        exact ⟨List.cons_ne_nil c _, s, by rw [hs]; rfl, hrange, hend⟩

end

/-- A word is read from its beginning. -/
theorem ofReference_of_ofWord? {t : Text} (ht : ∀ c ∈ t.head?, Text.isBlank c = false)
    {target : Target} (h : ofWord? t = some target) :
    ofReference t =
      if '#' ∈ target.path then .error (.malformedRange target.path) else .ok target := by
  cases t with
  | nil => cases h
  | cons c t =>
    have hhere : here? (c :: t) = some target := by
      rw [here?, if_neg (by simp [ht c rfl]), h]
    rw [ofReference, Text.firstMatch?, hhere]

theorem ofReference_append {p s : Text} (hp : p ≠ []) (hblank : ∀ c ∈ p, Text.isBlank c = false)
    (hsign : '#' ∉ p) (hs : s ≠ [] → (range? s).isSome = true) :
    ofReference (p ++ s) = .ok ⟨p, range? s⟩ := by
  have hhead : ∀ c ∈ (p ++ s).head?, Text.isBlank c = false := by
    rw [List.head?_append_of_ne_nil p hp]
    exact fun c hc => hblank c (List.mem_of_head? hc)
  rw [ofReference_of_ofWord? hhead (ofWord?_append hp hblank hsign hs), if_neg hsign]

/-- The word is a path with a range of lines behind it, and more text. -/
structure HasRange (t p first last rest : Text) : Prop where
  path_ne : p ≠ []
  no_sign : '#' ∉ p
  digits_first : Digits first
  digits_last : Digits last
  ends : EndsDigits rest
  eq : t = p ++ (rangeText first last ++ rest)

section

variable {t : Text} (ht : ∀ c ∈ t, Text.isBlank c = false)

include ht

theorem ofReference_eq_ok_iff {target : Target} : ofReference t = .ok target ↔
    target.path ≠ [] ∧ '#' ∉ target.path ∧ ∃ s, t = target.path ++ s ∧
      range? s = target.range ∧ (target.range = none → s = []) := by
  constructor
  · intro h
    by_cases hne : t = []
    · rw [hne] at h
      cases h
    · obtain ⟨target', h'⟩ := exists_ofWord?_eq_some ht hne
      rw [ofReference_of_ofWord? (fun c hc => ht c (List.mem_of_head? hc)) h'] at h
      split at h
      · cases h
      · next hsign =>
        cases h
        obtain ⟨hp, hs⟩ := eq_append_of_ofWord? ht h'
        exact ⟨hp, hsign, hs⟩
  · rintro ⟨hp, hsign, s, rfl, hrange, hend⟩
    have hblank : ∀ c ∈ target.path, Text.isBlank c = false :=
      fun c hc => ht c (List.mem_append_left s hc)
    have hs : s ≠ [] → (range? s).isSome = true := by
      intro hne
      rw [hrange, Option.isSome_iff_ne_none]
      exact fun hnone => hne (hend hnone)
    rw [ofReference_append hp hblank hsign hs, hrange]

/-- The whole word is the path. -/
theorem ofReference_path_iff {p : Text} :
    ofReference t = .ok ⟨p, none⟩ ↔ p = t ∧ t ≠ [] ∧ '#' ∉ t := by
  rw [ofReference_eq_ok_iff ht]
  constructor
  · rintro ⟨hp, hsign, s, rfl, -, hs⟩
    rw [hs rfl, List.append_nil]
    exact ⟨rfl, hp, hsign⟩
  · rintro ⟨rfl, hp, hsign⟩
    exact ⟨hp, hsign, [], by simp, rfl, fun _ => rfl⟩

/-- A range stands behind the path, whatever follows it. -/
theorem ofReference_range_iff {p : Text} {range : LineRange} :
    ofReference t = .ok ⟨p, some range⟩ ↔ ∃ first last rest, HasRange t p first last rest ∧
      range = ⟨LineRange.number first, LineRange.number last⟩ := by
  rw [ofReference_eq_ok_iff ht]
  constructor
  · rintro ⟨hp, hsign, s, heq, hrange, -⟩
    obtain ⟨first, last, rest, hf, hl, hr, rfl, hnumbers⟩ := range?_eq_some_iff.1 hrange
    exact ⟨first, last, rest, ⟨hp, hsign, hf, hl, hr, heq⟩, hnumbers⟩
  · rintro ⟨first, last, rest, ⟨hp, hsign, hf, hl, hr, heq⟩, hnumbers⟩
    exact ⟨hp, hsign, _, heq, range?_eq_some_iff.2 ⟨first, last, rest, hf, hl, hr, rfl, hnumbers⟩,
      nofun⟩

/-- A word with a number sign that yields no target is refused for its range. -/
theorem ofReference_of_sign (hsign : '#' ∈ t) :
    (∃ target, ofReference t = .ok target) ∨ ∃ p, ofReference t = .error (.malformedRange p) := by
  obtain ⟨target, h⟩ := exists_ofWord?_eq_some ht (List.ne_nil_of_mem hsign)
  rw [ofReference_of_ofWord? (fun c hc => ht c (List.mem_of_head? hc)) h]
  split
  · exact .inr ⟨_, rfl⟩
  · exact .inl ⟨_, rfl⟩

end

/-- Nothing of the reference is dropped, its numbers count as they are written, and a number sign
without a range is refused. -/
structure ReadsAsWritten (t : Text) : Prop where
  path : ∀ p, ofReference t = .ok ⟨p, none⟩ → t = p
  range : ∀ p range, ofReference t = .ok ⟨p, some range⟩ → ∃ first last, Digits first ∧
    Digits last ∧ t = p ++ rangeText first last ∧
    range = ⟨min (Text.digitsValue first) LineRange.limit,
      min (Text.digitsValue last) LineRange.limit⟩
  refused : '#' ∈ t → (∀ target, ofReference t ≠ .ok target) →
    ∃ p, ofReference t = .error (.malformedRange p)

theorem HasRange.of_readsAsWritten {t p first last rest : Text}
    (ht : ∀ c ∈ t, Text.isBlank c = false) (h : HasRange t p first last rest)
    (hread : ReadsAsWritten t) :
    rest = [] ∧ LineRange.Understood first ∧ LineRange.Understood last := by
  obtain ⟨first', last', hf', hl', heq, hnumbers⟩ := hread.range p _
    ((ofReference_range_iff ht).2 ⟨first, last, rest, h, rfl⟩)
  have hinj : rangeText first last ++ rest = rangeText first' last' ++ [] := by
    rw [h.eq] at heq
    rw [List.append_nil]
    exact List.append_cancel_left heq
  obtain ⟨rfl, rfl, hrest⟩ :=
    rangeText_append_inj h.digits_first h.digits_last h.ends hf' hl' endsDigits_nil hinj
  rw [LineRange.mk.injEq] at hnumbers
  exact ⟨hrest, LineRange.number_eq_iff.1 hnumbers.1, LineRange.number_eq_iff.1 hnumbers.2⟩

/-- A word is read as it is written unless text follows its range or a number of the range is
written in digits that are not understood. -/
theorem readsAsWritten_iff {t : Text} (ht : ∀ c ∈ t, Text.isBlank c = false) :
    ReadsAsWritten t ↔ ∀ p first last rest, HasRange t p first last rest →
      rest = [] ∧ LineRange.Understood first ∧ LineRange.Understood last := by
  constructor
  · exact fun hread p first last rest h => h.of_readsAsWritten ht hread
  · intro h
    refine ⟨fun p hp => ((ofReference_path_iff ht).1 hp).1.symm, fun p range hrange => ?_,
      fun hsign hnone => (ofReference_of_sign ht hsign).resolve_left fun ⟨_, h⟩ => hnone _ h⟩
    obtain ⟨first, last, rest, hword, rfl⟩ := (ofReference_range_iff ht).1 hrange
    obtain ⟨rfl, hf, hl⟩ := h p first last rest hword
    refine ⟨first, last, hword.digits_first, hword.digits_last, by simpa using hword.eq, ?_⟩
    rw [LineRange.number_eq_iff.2 hf, LineRange.number_eq_iff.2 hl]

/-- The word is `a#L1-L2`, in digits of two scripts. -/
theorem readsAsWritten_iff_sample :
    (∀ c ∈ "a#L1-L\u0662".toList, Text.isBlank c = false) ∧
      (ReadsAsWritten "a#L1-L\u0662".toList ↔ ∀ p first last rest,
        HasRange "a#L1-L\u0662".toList p first last rest →
          rest = [] ∧ LineRange.Understood first ∧ LineRange.Understood last) := by
  have ht : ∀ c ∈ "a#L1-L\u0662".toList, Text.isBlank c = false := by decide
  exact ⟨ht, readsAsWritten_iff ht⟩

/-- Text behind a range is dropped without a word, and a range in Arabic digits, here from line three
to line four, lies past every end. -/
theorem not_readsAsWritten :
    (∀ c ∈ "a#L1-L2x".toList, Text.isBlank c = false) ∧ ¬ ReadsAsWritten "a#L1-L2x".toList ∧
      (∀ c ∈ "a#L\u0663-L\u0664".toList, Text.isBlank c = false) ∧
      ¬ ReadsAsWritten "a#L\u0663-L\u0664".toList := by
  have ht : ∀ c ∈ "a#L1-L2x".toList, Text.isBlank c = false := by decide
  have ht' : ∀ c ∈ "a#L\u0663-L\u0664".toList, Text.isBlank c = false := by decide
  have h : HasRange "a#L1-L2x".toList ['a'] ['1'] ['2'] ['x'] :=
    ⟨by decide, by decide, by decide, by decide, by decide, rfl⟩
  have h' : HasRange "a#L\u0663-L\u0664".toList ['a'] ['\u0663'] ['\u0664'] [] :=
    ⟨by decide, by decide, by decide, by decide, by decide, rfl⟩
  refine ⟨ht, fun hread => ?_, ht', fun hread => ?_⟩
  · exact absurd (h.of_readsAsWritten ht hread).1 (by decide)
  · exact absurd (h'.of_readsAsWritten ht' hread).2.1 (by decide)

theorem digits_spelled (i n : Nat) : Digits (List.replicate i '0' ++ Text.ofNat n) := by
  refine ⟨?_, fun c hc => Text.isDigit_of_isAsciiDigit (Text.isAsciiDigit_of_mem_spelled hc)⟩
  obtain ⟨c, t, h, -⟩ := Text.exists_ofNat_eq_cons n
  simp [h]

/-- A path without blanks and number signs is read back by itself and with a range behind it. The
numbers of the range may have zeros in front, and those past the limit count as the limit. -/
theorem ofReference_spelled {p : Text} (hp : p ≠ []) (hblank : ∀ c ∈ p, Text.isBlank c = false)
    (hsign : '#' ∉ p) (a b i j : Nat) :
    ofReference p = .ok ⟨p, none⟩ ∧
      ofReference (p ++ rangeText (List.replicate i '0' ++ Text.ofNat a)
          (List.replicate j '0' ++ Text.ofNat b)) =
        .ok ⟨p, some ⟨min a LineRange.limit, min b LineRange.limit⟩⟩ := by
  have hpath := ofReference_append hp hblank hsign (s := []) (absurd rfl)
  rw [List.append_nil] at hpath
  refine ⟨hpath, ?_⟩
  have hrange := range?_eq_some_iff.2 ⟨_, _, [], digits_spelled i a, digits_spelled j b,
    endsDigits_nil, (List.append_nil _).symm, rfl⟩
  rw [ofReference_append hp hblank hsign fun _ => by rw [hrange]; rfl, hrange,
    LineRange.number_spelled, LineRange.number_spelled]

/-- The path has what looks like a range and a colon, and the second number is past the limit. -/
theorem ofReference_spelled_sample :
    "L1-L2:a".toList ≠ [] ∧ (∀ c ∈ "L1-L2:a".toList, Text.isBlank c = false) ∧
      '#' ∉ "L1-L2:a".toList ∧
      ofReference "L1-L2:a".toList = .ok ⟨"L1-L2:a".toList, none⟩ ∧
      ofReference ("L1-L2:a".toList ++ rangeText (List.replicate 2 '0' ++ Text.ofNat 7)
          (List.replicate 0 '0' ++ Text.ofNat (LineRange.limit + 1))) =
        .ok ⟨"L1-L2:a".toList,
          some ⟨min 7 LineRange.limit, min (LineRange.limit + 1) LineRange.limit⟩⟩ := by
  have hp : "L1-L2:a".toList ≠ [] := by decide
  have hblank : ∀ c ∈ "L1-L2:a".toList, Text.isBlank c = false := by decide
  have hsign : '#' ∉ "L1-L2:a".toList := by decide
  exact ⟨hp, hblank, hsign, ofReference_spelled hp hblank hsign 7 (LineRange.limit + 1) 2 0⟩

end Target
end FenceSync
