import FenceSync.Directive.Basic
import FenceSync.Proofs.Directive.Grammar
/-!
# Comments in front of a block

A comment with the word `ignore-next` can be read as one that names a path of that name. It is not
taken for one as long as a single space stands in front of the word; behind more of them the word is
a path and nothing else.
-/
namespace FenceSync.Preceding

open Comment (Closes xmlOpen xmlClose)

/-- The text begins with a comment of this tool that goes on like this behind the keyword. -/
def Opens (t r : Text) : Prop :=
  ∃ s, (∀ c ∈ s, Text.isBlank c = true) ∧ t = xmlOpen ++ (s ++ (keyword ++ r))

def SaysIgnoreNext (sep t : Text) : Prop :=
  ∃ s y, (∀ c ∈ s, Text.isBlank c = true) ∧
    Opens t (sep ++ (ignoreNextWord ++ (s ++ (xmlClose ++ y))))

def SaysPath (t path : Text) : Prop :=
  ∃ k c w r, Opens t (List.replicate (k + 1) ' ' ++ c :: r) ∧ Text.isBlank c = false ∧
    Closes w r ∧ path = c :: w

/-- The first comment that names a path holds `ignore-next` behind two spaces or more, and no
comment holds it behind one space or hyphen. -/
structure TakesIgnoreNextForPath (gap : Text) : Prop where
  loose : ∃ u v k, gap = u ++ v ∧ SaysIgnoreNext (List.replicate (k + 2) ' ') v ∧
    ∀ x y, gap = x ++ y → x.length < u.length → ∀ path, ¬SaysPath y path
  tight : ∀ x y, gap = x ++ y → ¬SaysIgnoreNext [' '] y ∧ ¬SaysIgnoreNext ['-'] y

variable {t r path gap : Text}

theorem afterKeyword?_eq_some_iff : afterKeyword? t = some r ↔ Opens t r := by
  rw [afterKeyword?, Option.bind_eq_some_iff]
  constructor
  · rintro ⟨v, hv, hr⟩
    refine ⟨v.takeWhile Text.isBlank, fun c hc => List.mem_takeWhile_imp hc, ?_⟩
    rw [Text.eq_append_of_after? hv, ← Text.eq_append_of_after? hr]
    exact congrArg _ List.takeWhile_append_dropWhile.symm
  · rintro ⟨s, hs, rfl⟩
    refine ⟨s ++ (keyword ++ r), Text.after?_append _ _, ?_⟩
    rw [Text.trimStart_append hs, Text.trimStart_eq_self, Text.after?_append]
    rintro c ⟨⟩
    decide

theorem ignoreNextHere?_of_says {c : Char} (hc : (c = ' ' || c = '-') = true)
    (h : SaysIgnoreNext [c] t) : ignoreNextHere? t = some () := by
  obtain ⟨s, y, hs, hr⟩ := h
  have hclose := Comment.startsWith_xmlClose_trimStart_iff.2 ⟨s, y, hs, rfl⟩
  rw [ignoreNextHere?, afterKeyword?_eq_some_iff.2 hr]
  simp only [List.singleton_append, hc, if_true, Text.after?_append, hclose]

theorem ignoreNextHere?_eq_some_iff :
    ignoreNextHere? t = some () ↔ SaysIgnoreNext [' '] t ∨ SaysIgnoreNext ['-'] t := by
  constructor
  · intro h
    rw [ignoreNextHere?] at h
    split at h
    · next c r hr =>
      rw [Option.ite_none_right_eq_some, Bool.or_eq_true, decide_eq_true_eq, decide_eq_true_eq] at h
      obtain ⟨hc, h⟩ := h
      split at h
      · next r' hword =>
        rw [Option.ite_none_right_eq_some] at h
        obtain ⟨s, y, hs, rfl⟩ := Comment.startsWith_xmlClose_trimStart_iff.1 h.1
        rw [afterKeyword?_eq_some_iff, Text.eq_append_of_after? hword] at hr
        rcases hc with rfl | rfl
        · exact .inl ⟨s, y, hs, hr⟩
        · exact .inr ⟨s, y, hs, hr⟩
      · cases h
    · cases h
  · rintro (h | h)
    · exact ignoreNextHere?_of_says (by decide) h
    · exact ignoreNextHere?_of_says (by decide) h

theorem overrideHere?_eq_some_iff : overrideHere? t = some path ↔ SaysPath t path := by
  rw [overrideHere?]
  constructor
  · intro h
    split at h
    · next r hr =>
      rw [afterKeyword?_eq_some_iff] at hr
      split at h
      · next c r' hdrop =>
        rw [Option.ite_none_left_eq_some, Bool.not_eq_true] at h
        obtain ⟨hc, h⟩ := h
        obtain ⟨w, hw, rfl⟩ := Option.map_eq_some_iff.1 h
        refine ⟨(r.takeWhile (· = ' ')).length, c, w, r', ?_, hc,
          Comment.wordBefore?_eq_some_iff.1 hw, rfl⟩
        have hspaces : r.takeWhile (· = ' ') =
            List.replicate (r.takeWhile (· = ' ')).length ' ' := by
          rw [List.eq_replicate_iff]
          exact ⟨rfl, fun a ha => by simpa using List.mem_takeWhile_imp ha⟩
        rw [List.replicate_succ, List.cons_append, ← hspaces, ← hdrop,
          List.takeWhile_append_dropWhile]
        exact hr
      · cases h
    · cases h
  · rintro ⟨k, c, w, r, hr, hc, hw, rfl⟩
    rw [afterKeyword?_eq_some_iff.2 hr, List.replicate_succ, List.cons_append]
    have hdrop : (List.replicate k ' ' ++ c :: r).dropWhile (· = ' ') = c :: r := by
      apply Text.dropWhile_append
      · intro a ha
        rw [List.eq_of_mem_replicate ha]
        rfl
      · rintro a ⟨⟩
        rw [decide_eq_false_iff_not]
        rintro rfl
        cases hc
    simp only [hdrop, hc, Comment.wordBefore?_eq_some_iff.2 hw, Bool.false_eq_true, if_false,
      Option.map_some]

/-- A path that is the word `ignore-next` is what a comment with that word names. -/
theorem saysPath_ignoreNextWord_iff :
    SaysPath t ignoreNextWord ↔ ∃ k, SaysIgnoreNext (List.replicate (k + 1) ' ') t := by
  constructor
  · rintro ⟨k, c, w, r, hr, -, ⟨-, -, s, y, hs, rfl⟩, hpath⟩
    refine ⟨k, s, y, hs, ?_⟩
    rw [hpath]
    exact hr
  · rintro ⟨k, s, y, hs, hr⟩
    exact ⟨k, 'i', "gnore-next".toList, _, hr, by decide, ⟨by decide, by decide, s, y, hs, rfl⟩, rfl⟩

theorem hasIgnoreNext_eq_false_iff : hasIgnoreNext gap = false ↔
    ∀ x y, gap = x ++ y → ¬SaysIgnoreNext [' '] y ∧ ¬SaysIgnoreNext ['-'] y := by
  rw [hasIgnoreNext, Option.isSome_eq_false_iff, Option.isNone_iff_eq_none,
    Text.firstMatch?_eq_none_iff]
  apply forall₃_congr
  rintro x y -
  rw [← not_or, ← ignoreNextHere?_eq_some_iff, Option.eq_none_iff_forall_ne_some]
  exact ⟨fun h => h (), fun h _ => h⟩

theorem findOverride?_eq_some_iff : findOverride? gap = some path ↔
    ∃ u v, gap = u ++ v ∧ SaysPath v path ∧
      ∀ x y, gap = x ++ y → x.length < u.length → ∀ path', ¬SaysPath y path' :=
  Text.firstMatch?_eq_some_iff_of_accepts fun _ _ => overrideHere?_eq_some_iff

theorem takesIgnoreNextForPath_iff : TakesIgnoreNextForPath gap ↔
    findOverride? gap = some ignoreNextWord ∧ hasIgnoreNext gap = false := by
  constructor
  · rintro ⟨⟨u, v, k, hgap, hv, hfirst⟩, htight⟩
    exact ⟨findOverride?_eq_some_iff.2
      ⟨u, v, hgap, saysPath_ignoreNextWord_iff.2 ⟨k + 1, hv⟩, hfirst⟩,
      hasIgnoreNext_eq_false_iff.2 htight⟩
  · rintro ⟨hpath, hignore⟩
    have htight := hasIgnoreNext_eq_false_iff.1 hignore
    obtain ⟨u, v, hgap, hv, hfirst⟩ := findOverride?_eq_some_iff.1 hpath
    obtain ⟨k, hk⟩ := saysPath_ignoreNextWord_iff.1 hv
    cases k with
    | zero => exact absurd hk (htight u v hgap).1
    | succ k => exact ⟨⟨u, v, k, hgap, hk, hfirst⟩, htight⟩

end FenceSync.Preceding

namespace FenceSync

theorem Directive.override?_of_ofReference {reference : Text} {override? : Option Text}
    {d : Directive} (h : ofReference reference override? = .ok d) : d.override? = override? := by
  rw [ofReference] at h
  split at h
  · cases h
  · cases h
  · cases h
    rfl

/-- A block is filled from a path in front of it only when no comment there says to ignore it. -/
theorem Directive.override?_of_ofFence {e : LineEnding} {f : Fence} {preceding : Preceding}
    {d : Directive} {path : Text} (h : ofFence e f preceding = .ok d)
    (hpath : d.override? = some path) :
    preceding.ignoreNext = false ∧ preceding.override? = some path := by
  rw [ofFence] at h
  split at h
  · cases h
  · next hignore =>
    refine ⟨by simpa using hignore, ?_⟩
    split at h
    · next p hp =>
      rw [hp, ← override?_of_ofReference h, hpath]
    · split at h
      · cases h
      · rw [override?_of_ofReference h] at hpath
        cases hpath

/-- A comment with the word `ignore-next` is taken for the name of a file exactly when two or more
spaces stand in front of the word, the comment is the first that names a path, and no comment says
the word properly. -/
theorem ignoreNext_taken_for_path_iff (gap : Text) :
    ((Preceding.scan gap).override? = some Preceding.ignoreNextWord ∧
        (Preceding.scan gap).ignoreNext = false ↔ Preceding.TakesIgnoreNextForPath gap) ∧
      ∀ (e : LineEnding) (f : Fence),
        Directive.ofFence e f (Preceding.scan gap) =
            .ok ⟨Preceding.ignoreNextWord, ⟨Preceding.ignoreNextWord, none⟩,
              some Preceding.ignoreNextWord⟩ ↔
          Preceding.TakesIgnoreNextForPath gap := by
  refine ⟨Preceding.takesIgnoreNextForPath_iff.symm, fun e f => ?_⟩
  rw [Preceding.takesIgnoreNextForPath_iff]
  constructor
  · intro h
    exact (Directive.override?_of_ofFence h rfl).symm
  · rintro ⟨hpath, hignore⟩
    have hreference : Directive.ofReference Preceding.ignoreNextWord (some Preceding.ignoreNextWord) =
        .ok ⟨Preceding.ignoreNextWord, ⟨Preceding.ignoreNextWord, none⟩,
          some Preceding.ignoreNextWord⟩ := by decide
    simp only [Directive.ofFence, Preceding.scan, hignore, hpath, Bool.false_eq_true, if_false,
      hreference]

/-- Two spaces make a path of the word. -/
theorem not_ignoreNext_of_override : ¬∀ gap : Text,
    (Preceding.scan gap).override? = some Preceding.ignoreNextWord →
      (Preceding.scan gap).ignoreNext = true := by
  intro h
  have hscan : Preceding.scan "<!-- embed-directive  ignore-next -->".toList =
      ⟨false, some Preceding.ignoreNextWord⟩ := by decide
  have himpossible := h "<!-- embed-directive  ignore-next -->".toList
  rw [hscan] at himpossible
  cases himpossible rfl

end FenceSync
