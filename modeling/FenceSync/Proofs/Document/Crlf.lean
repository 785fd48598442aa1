import FenceSync.Proofs.Document.Boundaries
import FenceSync.Proofs.Document.Style
/-!
# Line feeds made CRLF

`withCrlf` puts a carriage return in front of every line feed. Searching and trimming commute with
it: what is looked for holds no character of a line ending, and the two characters of a CRLF are
blanks. The lines of the new text at CRLF are those of the old one at line feeds, so its blocks are
the old ones too.
-/
namespace FenceSync

namespace Text

/-- The text with CRLF for every line feed. -/
def withCrlf : Text → Text
  | [] => []
  | c :: t => if c = '\n' then '\r' :: '\n' :: withCrlf t else c :: withCrlf t

@[simp] theorem withCrlf_nil : withCrlf [] = [] := rfl

@[simp] theorem withCrlf_newline (t : Text) :
    withCrlf ('\n' :: t) = '\r' :: '\n' :: withCrlf t := by simp [withCrlf]

theorem withCrlf_cons_of_ne {c : Char} (h : c ≠ '\n') (t : Text) :
    withCrlf (c :: t) = c :: withCrlf t := by simp [withCrlf, h]

theorem withCrlf_append (s t : Text) : withCrlf (s ++ t) = withCrlf s ++ withCrlf t := by
  induction s with
  | nil => rfl
  | cons c s ih => by_cases h : c = '\n' <;> simp [withCrlf, h, ih]

theorem withCrlf_of_not_mem {t : Text} (h : '\n' ∉ t) : withCrlf t = t := by
  induction t with
  | nil => rfl
  | cons c t ih =>
    rw [List.mem_cons, not_or] at h
    rw [withCrlf_cons_of_ne (Ne.symm h.1), ih h.2]

theorem Inline.withCrlf_eq {t : Text} (h : t.Inline) : withCrlf t = t :=
  withCrlf_of_not_mem fun hn => (h _ hn).2 rfl

theorem mem_of_mem_withCrlf {t : Text} {c : Char} (h : c ∈ withCrlf t) :
    c ∈ t ∨ (c = '\r' ∧ '\n' ∈ t) := by
  induction t with
  | nil => simp at h
  | cons a t ih => by_cases ha : a = '\n' <;> simp_all [withCrlf] <;> grind

/-- A line feed is the last of two characters, so it never comes first. -/
theorem head?_withCrlf_ne (t : Text) : (withCrlf t).head? ≠ some '\n' := by
  cases t with
  | nil => simp
  | cons c t => by_cases h : c = '\n' <;> simp [withCrlf, h]

theorem getLast?_withCrlf (t : Text) : (withCrlf t).getLast? = t.getLast? := by
  induction t with
  | nil => rfl
  | cons c t ih =>
    by_cases h : c = '\n' <;> simp [withCrlf, h, List.getLast?_cons, ih]

/-- Before every line feed stands a carriage return. -/
theorem getLast?_of_withCrlf_eq {t a b : Text} (h : withCrlf t = a ++ '\n' :: b) :
    a.getLast? = some '\r' := by
  induction t generalizing a with
  | nil => simp at h
  | cons c t ih =>
    by_cases hc : c = '\n'
    · subst hc
      rw [withCrlf_newline] at h
      rcases a with - | ⟨x, - | ⟨y, a⟩⟩
      · simp at h
      · simp [← (List.cons.inj h).1]
      · simp only [List.cons_append, List.cons.injEq] at h
        simp [List.getLast?_cons, ih h.2.2]
    · rw [withCrlf_cons_of_ne hc] at h
      rcases a with - | ⟨x, a⟩
      · exact absurd (List.cons.inj h).1 hc
      · simp [List.getLast?_cons, ih (List.cons.inj h).2]

theorem withCrlf_injective : Function.Injective withCrlf := by
  intro s t h
  induction s generalizing t with
  | nil =>
    cases t with
    | nil => rfl
    | cons d t => by_cases hd : d = '\n' <;> simp [withCrlf, hd] at h
  | cons c s ih =>
    have hhead (u v : Text) : withCrlf u ≠ '\n' :: v := by
      intro hu
      have h' := head?_withCrlf_ne u
      simp [hu] at h'
    cases t with
    | nil => by_cases hc : c = '\n' <;> simp [withCrlf, hc] at h
    | cons d t =>
      by_cases hc : c = '\n' <;> by_cases hd : d = '\n'
      · simp only [withCrlf, hc, hd, if_true, List.cons.injEq, true_and] at h
        rw [hc, hd, ih h]
      · simp only [withCrlf, hc, hd, if_true, if_false, List.cons.injEq] at h
        exact absurd h.2.symm (hhead t _)
      · simp only [withCrlf, hc, hd, if_true, if_false, List.cons.injEq] at h
        exact absurd h.2 (hhead s _)
      · simp only [withCrlf, hc, hd, if_false, List.cons.injEq] at h
        rw [h.1, ih h.2]

/-- A pattern without the characters of a line ending is found where it was. -/
theorem after?_withCrlf {p : Text} (hp : p.Inline) (t : Text) :
    after? p t.withCrlf = (after? p t).map withCrlf := by
  induction p generalizing t with
  | nil => rfl
  | cons a p ih =>
    have ha := hp a List.mem_cons_self
    cases t with
    | nil => rfl
    | cons c t =>
      by_cases hc : c = '\n'
      · subst hc
        simp [after?, ha]
      · rw [withCrlf_cons_of_ne hc, after?, after?, ih fun b hb => hp b (List.mem_cons_of_mem _ hb)]
        split <;> rfl

theorem cut?_withCrlf {p : Text} (hp : p.Inline) (hne : p ≠ []) (t : Text) :
    cut? p t.withCrlf = (cut? p t).map fun (b, r) => (b.withCrlf, r.withCrlf) := by
  obtain ⟨a, p, rfl⟩ := List.exists_cons_of_ne_nil hne
  have ha := hp a List.mem_cons_self
  induction t with
  | nil => rfl
  | cons c t ih =>
    by_cases hc : c = '\n'
    · subst hc
      simp [cut?, after?, ha, ih, Function.comp_def]
    · have hafter := after?_withCrlf hp (c :: t)
      rw [withCrlf_cons_of_ne hc] at hafter ⊢
      rw [cut?, cut?, hafter, ih]
      cases after? (a :: p) (c :: t) with
      | some r => rfl
      | none => simp [Function.comp_def, withCrlf_cons_of_ne hc]

theorem contains_withCrlf {p : Text} (hp : p.Inline) (hne : p ≠ []) (t : Text) :
    contains p t.withCrlf = contains p t := by
  rw [contains, cut?_withCrlf hp hne, Option.isSome_map, contains]

/-- A recogniser that never answers at a line feed, and elsewhere answers as before, is led to the
same answer. -/
theorem firstMatch?_withCrlf {α : Type} {f : Text → Option α} (hf : ∀ t, f t.withCrlf = f t)
    (hn : ∀ t, f ('\n' :: t) = none) (t : Text) :
    firstMatch? f t.withCrlf = firstMatch? f t := by
  induction t with
  | nil => rfl
  | cons c t ih =>
    have hc' := hf (c :: t)
    by_cases hc : c = '\n'
    · subst hc
      rw [withCrlf_newline, hn] at hc'
      simp [firstMatch?, hc', hn, ih]
    · rw [withCrlf_cons_of_ne hc] at hc' ⊢
      rw [firstMatch?, firstMatch?, hc', ih]

section

variable {p : Char → Bool} (hp : p '\r' = p '\n')

include hp

theorem dropWhile_withCrlf (t : Text) :
    t.withCrlf.dropWhile p = Text.withCrlf (t.dropWhile p) := by
  induction t with
  | nil => rfl
  | cons c t ih =>
    by_cases hc : c = '\n'
    · subst hc
      cases hn : p '\n' <;> simp [hp, hn, ih]
    · cases hpc : p c <;> simp [withCrlf_cons_of_ne hc, hpc, ih]

theorem takeWhile_withCrlf (t : Text) :
    t.withCrlf.takeWhile p = Text.withCrlf (t.takeWhile p) := by
  induction t with
  | nil => rfl
  | cons c t ih =>
    by_cases hc : c = '\n'
    · subst hc
      cases hn : p '\n' <;> simp [hp, hn, ih]
    · cases hpc : p c <;> simp [withCrlf_cons_of_ne hc, hpc, ih]

/-- The longest end of one kind, and what stands before it. -/
theorem endWhile_withCrlf (t : Text) :
    dropEndWhile p t.withCrlf = withCrlf (dropEndWhile p t) ∧
      takeEndWhile p t.withCrlf = withCrlf (takeEndWhile p t) := by
  have hcut : t.withCrlf = withCrlf (dropEndWhile p t) ++ withCrlf (takeEndWhile p t) := by
    rw [← withCrlf_append, dropEndWhile_append_takeEndWhile]
  have hfirst : ∀ c ∈ (withCrlf (dropEndWhile p t)).getLast?, p c = false := by
    rw [getLast?_withCrlf]
    exact getLast?_dropEndWhile
  have hend : ∀ c ∈ withCrlf (takeEndWhile p t), p c = true := by
    intro c hc
    rcases mem_of_mem_withCrlf hc with h | ⟨rfl, h⟩
    · exact forall_mem_takeEndWhile c h
    · rw [hp]
      exact forall_mem_takeEndWhile _ h
  rw [hcut]
  exact ⟨dropEndWhile_append hfirst hend, takeEndWhile_append hfirst hend⟩

end

theorem trimStart_withCrlf (t : Text) : trimStart t.withCrlf = (trimStart t).withCrlf :=
  dropWhile_withCrlf (by decide) t

theorem trim_withCrlf (t : Text) : trim t.withCrlf = (trim t).withCrlf := by
  rw [trim, trimStart_withCrlf]
  exact (endWhile_withCrlf (by decide) _).1

end Text

namespace LineEnding

theorem detect_withCrlf {t : Text} (h : '\n' ∈ t) : detect t.withCrlf = .crlf := by
  obtain ⟨a, b, rfl⟩ := List.append_of_mem h
  rw [detect_eq_crlf_iff, Text.withCrlf_append, Text.withCrlf_newline]
  exact ⟨Text.withCrlf a, Text.withCrlf b, by simp [text]⟩

/-- The lines stay as they are, whatever carriage returns they hold. -/
theorem split_withCrlf (t : Text) : crlf.split t.withCrlf = lf.split t := by
  induction t with
  | nil => rfl
  | cons c t ih =>
    by_cases hc : c = '\n'
    · subst hc
      rw [Text.withCrlf_newline]
      exact congrArg ([] :: ·) ih
    · have hlf : ¬ lf.text <+: c :: t := not_prefix_cons (fun _ => hc) (by simp)
      have hcrlf : ¬ crlf.text <+: c :: Text.withCrlf t := by
        refine not_prefix_cons (by simp) fun s _ _ hs => ?_
        exact Text.head?_withCrlf_ne t (by rw [hs]; rfl)
      rw [Text.withCrlf_cons_of_ne hc, split_cons hlf, split_cons hcrlf, ih]

theorem join_crlf {ls : List Text} (h : ∀ l ∈ ls, '\n' ∉ l) :
    crlf.join ls = (lf.join ls).withCrlf := by
  induction ls with
  | nil => rfl
  | cons l ls ih =>
    have hl := Text.withCrlf_of_not_mem (h l List.mem_cons_self)
    by_cases hls : ls = []
    · rw [hls, join_singleton, join_singleton, hl]
    · rw [join_cons _ l hls, join_cons _ l hls, ih fun m hm => h m (List.mem_cons_of_mem _ hm),
        Text.withCrlf_append, Text.withCrlf_append, hl]
      rfl

theorem lineCount_withCrlf (t : Text) : crlf.lineCount t.withCrlf = lf.lineCount t := by
  rw [lineCount, split_withCrlf, lineCount]

theorem breaks_withCrlf (t : Text) : crlf.breaks t.withCrlf = lf.breaks t := by
  rw [breaks, lineCount_withCrlf, breaks]

end LineEnding

namespace Fence

def withCrlf (f : Fence) : Fence := ⟨f.indent.withCrlf, f.inside.withCrlf⟩

theorem raw_withCrlf (f : Fence) : f.withCrlf.raw = f.raw.withCrlf := by
  rw [raw, raw, Text.withCrlf_append, Text.withCrlf_append, inline_delimiter.withCrlf_eq]
  rfl

theorem tag_withCrlf (f : Fence) : f.withCrlf.tag = f.tag := by
  have h := Text.takeWhile_withCrlf (p := fun c => c != '\r' && c != '\n') rfl f.inside
  rw [tag, withCrlf, h]
  exact f.inline_tag.withCrlf_eq

theorem firstLine?_withCrlf (f : Fence) : f.withCrlf.firstLine? .crlf = f.firstLine? .lf := by
  rw [firstLine?, raw_withCrlf, LineEnding.split_withCrlf, firstLine?]

theorem delimiterLine?_withCrlf (t : Text) : delimiterLine? t.withCrlf =
    (delimiterLine? t).map fun (d, r) => (d.withCrlf, r.withCrlf) := by
  rw [delimiterLine?, Text.dropWhile_withCrlf (by decide), Text.takeWhile_withCrlf (by decide),
    Text.after?_withCrlf inline_delimiter, delimiterLine?]
  simp only [Option.map_map, Function.comp_def, Text.withCrlf_append, inline_delimiter.withCrlf_eq]

theorem closing?_withCrlf (t : Text) : closing? t.withCrlf =
    (closing? t).map fun (i, r) => (i.withCrlf, r.withCrlf) := by
  induction t with
  | nil => rfl
  | cons c t ih =>
    by_cases hc : c = '\n'
    · subst hc
      have hd := delimiterLine?_withCrlf t
      rw [Text.withCrlf_newline, closing?_cons_of_ne (by decide)]
      cases h : delimiterLine? t with
      | some x =>
        rw [h] at hd
        rw [closing?_newline_of_some hd, closing?_newline_of_some h]
        simp
      | none =>
        rw [h] at hd
        rw [closing?_newline_of_none hd, closing?_newline_of_none h, ih]
        simp [Function.comp_def]
    · rw [Text.withCrlf_cons_of_ne hc, closing?_cons_of_ne hc, closing?_cons_of_ne hc, ih]
      simp [Function.comp_def, Text.withCrlf_cons_of_ne hc]

theorem next?_withCrlf (t : Text) : next? t.withCrlf =
    (next? t).map fun (gap, f, r) => (gap.withCrlf, f.withCrlf, r.withCrlf) := by
  rw [next?, Text.cut?_withCrlf inline_delimiter (by decide), next?]
  cases Text.cut? delimiter t with
  | none => rfl
  | some x =>
    obtain ⟨before, after⟩ := x
    obtain ⟨hdrop, htake⟩ := Text.endWhile_withCrlf (p := Text.isIndent) (by decide) before
    simp [closing?_withCrlf, Function.comp_def, hdrop, htake, withCrlf]

end Fence

namespace Layout

theorem ofText_withCrlf (t : Text) : ofText t.withCrlf =
    ⟨(ofText t).blocks.map fun (gap, f) => (gap.withCrlf, f.withCrlf),
      (ofText t).tail.withCrlf⟩ := by
  fun_induction ofText t with
  | case1 t h =>
    rw [ofText_of_next?_eq_none (by rw [Fence.next?_withCrlf, h, Option.map_none])]
    rfl
  | case2 t g f r h l ih =>
    have hnext : Fence.next? t.withCrlf = some (g.withCrlf, f.withCrlf, r.withCrlf) := by
      rw [Fence.next?_withCrlf, h, Option.map_some]
    rw [ofText_of_next?_eq_some hnext, ih]
    rfl

end Layout
end FenceSync
