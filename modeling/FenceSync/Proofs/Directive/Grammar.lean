import FenceSync.Proofs.Directive.Comment
/-!
# The grammar of comment lines

Which reference a line holds, said of the line as a whole. Behind a marker it is the word that the
line ends in, or what follows the first marker in that word; between the halves of an XML comment it
is the word of the first comment that holds one word or none.
-/
namespace FenceSync.Comment

def lastWord (line : Text) : Text := Text.takeEndWhile (fun c => !Text.isBlank c) line

def Announced (marker line : Text) : Prop :=
  ∃ x c, Text.isBlank c = true ∧ line = x ++ marker ++ c :: lastWord line

def FollowsFirst (marker word t : Text) : Prop :=
  ∃ b, word = b ++ marker ++ t ∧
    ∀ b' t', word = b' ++ marker ++ t' → b.length ≤ b'.length

/-- What a line with markers refers to. -/
def Marked (marker line t : Text) : Prop :=
  t ≠ [] ∧ (Announced marker line ∧ t = lastWord line ∨
    ¬Announced marker line ∧ FollowsFirst marker (lastWord line) t)

/-- The text begins with the word, and the next thing behind it but for blanks is the closing half
of a comment. -/
structure Closes (w t : Text) : Prop where
  solid : ∀ c ∈ w, Text.isBlank c = false
  whole : ¬xmlClose <:+: w
  closed : ∃ s y, (∀ c ∈ s, Text.isBlank c = true) ∧ t = w ++ (s ++ (xmlClose ++ y))

/-- The text begins with a comment that holds the word, which may be empty, and blanks. -/
def Encloses (t w : Text) : Prop :=
  ∃ s r, (∀ c ∈ s, Text.isBlank c = true) ∧ t = xmlOpen ++ (s ++ r) ∧ Closes w r

/-- The first comment that holds one word or none holds this one. -/
def Enclosed (line t : Text) : Prop :=
  t ≠ [] ∧ ∃ u v, line = u ++ v ∧ Encloses v t ∧
    ∀ x y, line = x ++ y → x.length < u.length → ∀ t', ¬Encloses y t'

/-- What a line refers to in a family of comments. -/
def Names (family : CommentFamily) (line t : Text) : Prop :=
  if family = .xml then Enclosed line t else ∃ marker ∈ family.marker?, Marked marker line t

variable {marker line t u v w : Text} {c : Char}

theorem not_isBlank_of_mem_lastWord : ∀ c ∈ lastWord line, Text.isBlank c = false := by
  intro c hc
  have h := Text.forall_mem_takeEndWhile c hc
  rwa [Bool.not_eq_true'] at h

theorem exists_eq_append_lastWord (line : Text) : ∃ y, line = y ++ lastWord line :=
  ⟨_, (Text.dropEndWhile_append_takeEndWhile _ line).symm⟩

theorem lastWord_append (u : Text) (hv : ∀ c ∈ v, Text.isBlank c = false) :
    lastWord (u ++ v) = lastWord u ++ v :=
  Text.takeEndWhile_append_of_pos (fun c hc => by rw [hv c hc]; rfl) u

theorem lastWord_behind_blank (u : Text) (hc : Text.isBlank c = true)
    (hv : ∀ c ∈ v, Text.isBlank c = false) : lastWord (u ++ c :: v) = v := by
  rw [← List.singleton_append, ← List.append_assoc]
  apply Text.takeEndWhile_append
  · intro a ha
    rw [List.getLast?_concat, Option.mem_some_iff] at ha
    rw [← ha, hc]
    rfl
  · intro a ha
    rw [hv a ha]
    rfl

section

variable (hm : Solid marker)

include hm

/-- A marker that announces a word stands in front of the last word or in it. -/
theorem lastWord_of_markedWord? (h : markedWord? marker v = some t) (u : Text) :
    (∃ c, Text.isBlank c = true ∧ v = marker ++ c :: t ∧ lastWord (u ++ v) = t) ∨
      (v = marker ++ t ∧ lastWord (u ++ v) = lastWord u ++ v) := by
  obtain ⟨ht, rfl | ⟨c, hc, rfl⟩⟩ := markedWord?_eq_some_iff.1 h
  · right
    refine ⟨rfl, lastWord_append u fun c hc => ?_⟩
    exact (List.mem_append.1 hc).elim (hm.2 c) (ht c)
  · left
    refine ⟨c, hc, rfl, ?_⟩
    rw [← List.append_assoc]
    exact lastWord_behind_blank (u ++ marker) hc ht

theorem firstMatch?_of_announced (h : Announced marker line) :
    Text.firstMatch? (markedWord? marker) line = some (lastWord line) := by
  obtain ⟨x, c, hc, hx⟩ := h
  have hmatch : markedWord? marker (marker ++ c :: lastWord line) = some (lastWord line) :=
    markedWord?_eq_some_iff.2 ⟨not_isBlank_of_mem_lastWord, .inr ⟨c, hc, rfl⟩⟩
  rw [List.append_assoc] at hx
  cases hf : Text.firstMatch? (markedWord? marker) line with
  | none =>
    rw [Text.firstMatch?_eq_none_iff.1 hf _ _ hx] at hmatch
    cases hmatch
  | some t =>
    obtain ⟨u, v, rfl, hv, hfirst⟩ := Text.firstMatch?_eq_some_iff.1 hf
    have hle : ¬x.length < u.length := by
      intro hlt
      rw [hfirst _ _ hx hlt] at hmatch
      cases hmatch
    rcases lastWord_of_markedWord? hm hv u with ⟨c', -, -, hlast⟩ | ⟨rfl, hlast⟩
    · rw [hlast]
    · -- the word found would not reach back to the marker in front of the last word
      have hlen := congrArg List.length hx
      simp only [hlast, List.length_append, List.length_cons] at hlen
      omega

theorem followsFirst_of_firstMatch? (hn : ¬Announced marker line)
    (h : Text.firstMatch? (markedWord? marker) line = some t) :
    FollowsFirst marker (lastWord line) t := by
  obtain ⟨u, v, rfl, hv, hfirst⟩ := Text.firstMatch?_eq_some_iff.1 h
  rcases lastWord_of_markedWord? hm hv u with ⟨c, hc, rfl, hlast⟩ | ⟨rfl, hlast⟩
  · exact absurd ⟨u, c, hc, by rw [hlast, List.append_assoc]⟩ hn
  refine ⟨lastWord u, by rw [hlast, List.append_assoc], fun b' t' hb => ?_⟩
  obtain ⟨y, hy⟩ := exists_eq_append_lastWord u
  have hlen := congrArg List.length hy
  simp only [List.length_append] at hlen
  by_contra hlt
  have hsplit : u ++ (marker ++ t) = (y ++ b') ++ (marker ++ t') := by
    rw [List.append_assoc y, ← List.append_assoc b', ← hb, hlast, ← List.append_assoc y, ← hy]
  have hnone := hfirst _ _ hsplit (by rw [List.length_append]; omega)
  have hblank : ∀ c ∈ t', Text.isBlank c = false := fun c hc =>
    not_isBlank_of_mem_lastWord c (by rw [hb]; exact List.mem_append_right _ hc)
  rw [markedWord?_eq_some_iff.2 ⟨hblank, .inl rfl⟩] at hnone
  cases hnone

theorem firstMatch?_of_followsFirst (hn : ¬Announced marker line)
    (h : FollowsFirst marker (lastWord line) t) :
    Text.firstMatch? (markedWord? marker) line = some t := by
  obtain ⟨b, hb, hleast⟩ := h
  obtain ⟨y, hy⟩ := exists_eq_append_lastWord line
  rw [List.append_assoc] at hb
  have hblank : ∀ c ∈ t, Text.isBlank c = false := fun c hc =>
    not_isBlank_of_mem_lastWord c (by rw [hb]; simp [hc])
  rw [Text.firstMatch?_eq_some_iff]
  refine ⟨y ++ b, marker ++ t, by rw [List.append_assoc, ← hb, ← hy],
    markedWord?_eq_some_iff.2 ⟨hblank, .inl rfl⟩, fun x z hxz hlt => ?_⟩
  rw [Option.eq_none_iff_forall_ne_some]
  intro r hr
  subst hxz
  rcases lastWord_of_markedWord? hm hr x with ⟨c, hc, rfl, hlast⟩ | ⟨rfl, hlast⟩
  · exact hn ⟨x, c, hc, by rw [hlast, List.append_assoc]⟩
  · have hle := hleast (lastWord x) r (by rw [hlast, List.append_assoc])
    have hlen := congrArg List.length hy
    simp only [hlast, List.length_append] at hlen hlt
    omega

theorem firstMatch?_eq_some_iff_marked (ht : t ≠ []) :
    Text.firstMatch? (markedWord? marker) line = some t ↔ Marked marker line t := by
  by_cases ha : Announced marker line
  · rw [firstMatch?_of_announced hm ha]
    simp [Marked, ht, ha, eq_comm]
  · simp only [Marked, ne_eq, ht, not_false_eq_true, ha, false_and, true_and, false_or]
    exact ⟨followsFirst_of_firstMatch? hm ha, firstMatch?_of_followsFirst hm ha⟩

end

/-- The closing half that begins in a word lies in the word. -/
theorem infix_of_xmlClose_prefix {s y : Text} (hs : ∀ c ∈ s, Text.isBlank c = true) (hw : w ≠ [])
    (h : xmlClose <+: w ++ (s ++ (xmlClose ++ y))) : xmlClose <:+: w := by
  have hrest : ∀ p : Text, p = ['-', '>'] ∨ p = ['>'] → ¬p <+: s ++ (xmlClose ++ y) := by
    intro p hp hpre
    cases s with
    | nil => rcases hp with rfl | rfl <;> simp [xmlClose] at hpre
    | cons b s =>
      have hb := hs b List.mem_cons_self
      rcases hp with rfl | rfl <;>
        · rw [List.cons_append, List.cons_prefix_cons] at hpre
          rw [← hpre.1] at hb
          cases hb
  match w, hw with
  | [a], _ =>
    rw [xmlClose, List.cons_append, List.cons_prefix_cons] at h
    exact absurd h.2 (hrest _ (.inl rfl))
  | [a, b], _ =>
    rw [xmlClose, List.cons_append, List.cons_prefix_cons, List.cons_append,
      List.cons_prefix_cons] at h
    exact absurd h.2.2 (hrest _ (.inr rfl))
  | a :: b :: c :: w, _ =>
    rw [List.isPrefix_append_of_length (by simp [xmlClose])] at h
    exact h.isInfix

theorem startsWith_xmlClose_trimStart_iff :
    Text.startsWith xmlClose (Text.trimStart t) = true ↔
      ∃ s y, (∀ c ∈ s, Text.isBlank c = true) ∧ t = s ++ (xmlClose ++ y) := by
  rw [Text.startsWith_iff]
  constructor
  · rintro ⟨y, hy⟩
    refine ⟨t.takeWhile Text.isBlank, y, fun c hc => List.mem_takeWhile_imp hc, ?_⟩
    rw [hy]
    exact List.takeWhile_append_dropWhile.symm
  · rintro ⟨s, y, hs, rfl⟩
    rw [Text.trimStart_append hs, Text.trimStart_eq_self]
    · exact List.prefix_append _ _
    · rintro c ⟨⟩
      decide

theorem closes_nil_iff : Closes [] t ↔ Text.startsWith xmlClose (Text.trimStart t) = true := by
  rw [startsWith_xmlClose_trimStart_iff]
  exact ⟨fun h => h.closed, fun h => ⟨by simp, by simp [xmlClose], h⟩⟩

theorem closes_cons_iff {a : Char} : Closes (a :: w) (c :: t) ↔
    a = c ∧ Text.isBlank c = false ∧
      ¬Text.startsWith xmlClose (Text.trimStart (c :: t)) = true ∧ Closes w t := by
  have hself (hc : Text.isBlank c = false) : Text.trimStart (c :: t) = c :: t :=
    Text.trimStart_eq_self (by rintro b ⟨⟩; exact hc)
  constructor
  · rintro ⟨hw, hwhole, s, y, hs, ht⟩
    cases ht
    obtain ⟨hc, hw⟩ := List.forall_mem_cons.1 hw
    refine ⟨rfl, hc, fun hpre => hwhole ?_, hw, fun h => ?_, s, y, hs, rfl⟩
    · rw [hself hc, Text.startsWith_iff] at hpre
      exact infix_of_xmlClose_prefix hs (List.cons_ne_nil c w) hpre
    · exact hwhole (h.trans (List.suffix_cons c w).isInfix)
  · rintro ⟨rfl, hc, hnot, hw, hwhole, s, y, hs, rfl⟩
    refine ⟨List.forall_mem_cons.2 ⟨hc, hw⟩, ?_, s, y, hs, rfl⟩
    rw [List.infix_cons_iff, not_or]
    refine ⟨fun hpre => hnot ?_, hwhole⟩
    rw [hself hc, Text.startsWith_iff, ← List.cons_append]
    exact hpre.trans (List.prefix_append _ _)

/-- The word in front of the closing half is the one that the half closes. -/
theorem wordBefore?_eq_some_iff : wordBefore? xmlClose t = some w ↔ Closes w t := by
  induction t generalizing w with
  | nil =>
    simp only [wordBefore?, xmlClose, List.isEmpty_cons, Bool.false_eq_true, if_false, reduceCtorEq,
      false_iff]
    rintro ⟨-, -, s, y, -, ht⟩
    simp [xmlClose] at ht
  | cons c t ih =>
    rw [wordBefore?]
    cases w with
    | nil =>
      rw [closes_nil_iff]
      split
      · next h => simp [h]
      · next h => split <;> simp [h]
    | cons a w =>
      rw [closes_cons_iff, ← ih]
      split
      · next h => simp [h]
      · next h =>
        split
        · next hc => simp [hc]
        · next hc =>
          rw [Bool.not_eq_true] at hc
          constructor
          · intro hmap
            obtain ⟨w', hw, ⟨⟩⟩ := Option.map_eq_some_iff.1 hmap
            exact ⟨rfl, hc, h, hw⟩
          · rintro ⟨rfl, -, -, hw⟩
            rw [hw, Option.map_some]

/-- Blanks in front of a word are no part of it. -/
theorem Closes.trimStart {s : Text} (hs : ∀ c ∈ s, Text.isBlank c = true) (h : Closes w t) :
    Closes w (Text.trimStart (s ++ t)) := by
  rw [Text.trimStart_append hs]
  cases w with
  | nil => rwa [closes_nil_iff, Text.trimStart_eq_self Text.head?_trimStart, ← closes_nil_iff]
  | cons a w =>
    obtain ⟨hw, hwhole, s', y, hs', rfl⟩ := h
    rw [Text.trimStart_eq_self]
    · exact ⟨hw, hwhole, s', y, hs', rfl⟩
    · rintro b ⟨⟩
      exact hw _ List.mem_cons_self

theorem xmlWord?_eq_some_iff : xmlWord? t = some w ↔ Encloses t w := by
  rw [xmlWord?, Option.bind_eq_some_iff]
  constructor
  · rintro ⟨r, hr, hw⟩
    refine ⟨r.takeWhile Text.isBlank, Text.trimStart r,
      fun c hc => List.mem_takeWhile_imp hc, ?_, wordBefore?_eq_some_iff.1 hw⟩
    rw [Text.trimStart, List.takeWhile_append_dropWhile]
    exact Text.eq_append_of_after? hr
  · rintro ⟨s, r, hs, rfl, hr⟩
    exact ⟨s ++ r, Text.after?_append _ _, wordBefore?_eq_some_iff.2 (hr.trimStart hs)⟩

theorem firstMatch?_eq_some_iff_enclosed (ht : t ≠ []) :
    Text.firstMatch? xmlWord? line = some t ↔ Enclosed line t := by
  rw [Text.firstMatch?_eq_some_iff_of_accepts fun _ _ => xmlWord?_eq_some_iff]
  exact ⟨fun h => ⟨ht, h⟩, fun h => h.2⟩

theorem reference?_eq_some_iff {family : CommentFamily} :
    reference? family line = some t ↔ t ≠ [] ∧ word? family line = some t := by
  rw [reference?, Option.filter_eq_some_iff, and_comm, Bool.not_eq_true', List.isEmpty_eq_false_iff]

theorem word?_of_ne_xml {family : CommentFamily} (h : family ≠ .xml) :
    word? family line =
      family.marker?.bind fun marker => Text.firstMatch? (markedWord? marker) line := by
  cases family with
  | xml => exact absurd rfl h
  | _ => rfl

/-- A line refers to what the grammar of its family says, and to nothing when that says nothing. -/
theorem reference_iff_names (family : CommentFamily) (line t : Text) :
    reference? family line = some t ↔ Names family line t := by
  rw [reference?_eq_some_iff, Names]
  split
  · next h =>
    subst h
    constructor
    · rintro ⟨ht, hw⟩
      exact (firstMatch?_eq_some_iff_enclosed ht).1 hw
    · intro h
      exact ⟨h.1, (firstMatch?_eq_some_iff_enclosed h.1).2 h⟩
  · next h =>
    rw [word?_of_ne_xml h]
    constructor
    · rintro ⟨ht, hw⟩
      obtain ⟨marker, hm, hw⟩ := Option.bind_eq_some_iff.1 hw
      exact ⟨marker, hm, (firstMatch?_eq_some_iff_marked (solid_marker hm) ht).1 hw⟩
    · rintro ⟨marker, hm, hw⟩
      exact ⟨hw.1, Option.bind_eq_some_iff.2
        ⟨marker, hm, (firstMatch?_eq_some_iff_marked (solid_marker hm) hw.1).2 hw⟩⟩

/-- Of several markers in the last word the first counts. -/
example : reference? .slashes "see http://h/a//b.js".toList = some "h/a//b.js".toList := by decide

end FenceSync.Comment
