import FenceSync.Proofs.Path.Normal
import FenceSync.Snippet.Basic
import Mathlib.Logic.Relation
/-!
# Folding paths

Components fold where a `.` is silent, where `..` takes back the name in front of it, and where it
stands behind the root. Whichever place is folded first, what is left in the end is the normal form
of the path, in which `..` stands only in front.
-/
namespace FenceSync

open Relation (ReflTransGen)

namespace Path

/-- One place of the components is folded. -/
inductive Folds : List Component → List Component → Prop
  | here (a b : List Component) : Folds (a ++ .here :: b) (a ++ b)
  | name (a : List Component) (n : Bytes) (b : List Component) :
      Folds (a ++ .name n :: .up :: b) (a ++ b)
  | root (a b : List Component) : Folds (a ++ .root :: .up :: b) (a ++ .root :: b)

def Folded (cs : List Component) : Prop := ∀ ds, ¬Folds cs ds

variable {s cs ds : List Component}

/-- Components that fold leave what they left before. -/
theorem Folds.foldl_push (h : Folds cs ds) (s : List Component) :
    cs.foldl push s = ds.foldl push s := by
  cases h with
  | here a b => simp [push]
  | name a n b => simp [push]
  | root a b => simp [push]

theorem foldl_push_of_reflTransGen (h : ReflTransGen Folds cs ds) (s : List Component) :
    cs.foldl push s = ds.foldl push s := by
  induction h with
  | refl => rfl
  | tail _ h ih => exact ih.trans (h.foldl_push s)

theorem reflTransGen_push (s : List Component) (c : Component) (cs : List Component) :
    ReflTransGen Folds (s.reverse ++ c :: cs) ((push s c).reverse ++ cs) := by
  cases c with
  | root => simpa [push] using .refl
  | name n => simpa [push] using .refl
  | here => exact .single (.here _ _)
  | up =>
    cases s with
    | nil => simpa [push] using .refl
    | cons d s =>
      cases d with
      | up => simpa [push] using .refl
      | here => simpa [push] using .refl
      | name n =>
        refine .single ?_
        simpa [push] using Folds.name s.reverse n cs
      | root =>
        refine .single ?_
        simpa [push] using Folds.root s.reverse cs

theorem reflTransGen_foldl_push (s cs : List Component) :
    ReflTransGen Folds (s.reverse ++ cs) (cs.foldl push s).reverse := by
  induction cs generalizing s with
  | nil => simpa using .refl
  | cons c cs ih => exact (reflTransGen_push s c cs).trans (ih (push s c))

/-- Components that are folded all stay where they are pushed. -/
theorem Folded.foldl_push (h : Folded (s.reverse ++ cs)) : cs.foldl push s = cs.reverse ++ s := by
  induction cs generalizing s with
  | nil => rfl
  | cons c cs ih =>
    have hpush : push s c = c :: s := by
      cases c with
      | root => rfl
      | name n => rfl
      | here => exact absurd (.here _ _) (h _)
      | up =>
        cases s with
        | nil => rfl
        | cons d s =>
          rw [List.reverse_cons, List.append_assoc] at h
          cases d with
          | up => rfl
          | here => rfl
          | name n => exact absurd (.name _ n cs) (h _)
          | root => exact absurd (.root _ cs) (h _)
    rw [List.foldl_cons, hpush, ih (by simpa using h)]
    simp

/-- Names on a root, or on `..` parts; the innermost name first. -/
inductive Stacked : List Component → Prop
  | root : Stacked [.root]
  | ups (n : Nat) : Stacked (List.replicate n .up)
  | name (n : Bytes) {s : List Component} (h : Stacked s) : Stacked (.name n :: s)

namespace Stacked

theorem push {c : Component} (h : Stacked s) (hc : c.isStep = true) : Stacked (push s c) := by
  cases c with
  | root => cases hc
  | here => cases hc
  | name n => exact .name n h
  | up =>
    cases h with
    | root => exact .root
    | name n h => exact h
    | ups n =>
      cases n with
      | zero => exact .ups 1
      | succ n => exact .ups (n + 2)

theorem foldl_push (h : Stacked s) (hcs : ∀ c ∈ cs, c.isStep = true) :
    Stacked (cs.foldl Path.push s) := by
  induction cs generalizing s with
  | nil => exact h
  | cons c cs ih =>
    obtain ⟨hc, hcs⟩ := List.forall_mem_cons.1 hcs
    exact ih (h.push hc) hcs

theorem here_not_mem (h : Stacked s) : .here ∉ s := by
  induction h with
  | root => simp
  | ups n => simp
  | name n h ih => simpa using ih

theorem up_not_mem (h : Stacked s) (hr : .root ∈ s) : .up ∉ s := by
  induction h with
  | root => simp
  | ups n => simp at hr
  | name n h ih => simpa using ih (by simpa using hr)

/-- Under a `..` there is nothing else. -/
theorem eq_up (h : Stacked s) {a b : List Component} (hs : s = a ++ .up :: b) :
    ∀ c ∈ b, c = .up := by
  induction h generalizing a with
  | root =>
    rcases List.cons_eq_append_iff.1 hs with ⟨-, hb⟩ | ⟨a, -, hb⟩
    · cases hb
    · simp at hb
  | ups n =>
    intro c hc
    refine List.eq_of_mem_replicate (n := n) ?_
    rw [hs]
    exact List.mem_append_right a (List.mem_cons_of_mem _ hc)
  | name n h ih =>
    rcases List.cons_eq_append_iff.1 hs with ⟨-, hb⟩ | ⟨a, -, hb⟩
    · cases hb
    · exact ih hb

end Stacked

theorem stacked_stack (p : Path) : Stacked p.stack := by
  have hsteps : ∀ c ∈ p.steps, c.isStep = true := fun c hc => (plain_of_mem_steps hc).isStep
  rw [stack_eq]
  cases hp : p.isAbsolute with
  | true =>
    have hleader : p.leader.foldl push [] = [.root] := by simp [leader, hp, push]
    rw [hleader]
    exact Stacked.root.foldl_push hsteps
  | false =>
    rw [foldl_push_leader hp]
    exact (Stacked.ups 0).foldl_push hsteps

/-- In a normal form no `.` is left, and only `..` stands in front of `..`. -/
structure Normal (cs : List Component) : Prop where
  here_not_mem : .here ∉ cs
  eq_up : ∀ a b, cs = a ++ .up :: b → ∀ c ∈ a, c = .up

theorem Normal.folded (h : Normal cs) : Folded cs := by
  rintro ds (⟨a, b⟩ | ⟨a, n, b⟩ | ⟨a, b⟩)
  · exact h.here_not_mem (by simp)
  · cases h.eq_up (a ++ [.name n]) b (by simp) (.name n) (by simp)
  · cases h.eq_up (a ++ [.root]) b (by simp) .root (by simp)

theorem normal_normalize (p : Path) : Normal p.normalize.components := by
  have h := stacked_stack p
  rw [components_normalize]
  refine ⟨by simpa using h.here_not_mem, fun a b hs c hc => ?_⟩
  have hs' : p.stack = b.reverse ++ .up :: a.reverse := by
    rw [← List.reverse_reverse p.stack, hs]
    simp
  exact h.eq_up hs' c (List.mem_reverse.2 hc)

theorem up_not_mem_normalize {p : Path} (hp : p.isAbsolute = true) :
    .up ∉ p.normalize.components := by
  have hr : .root ∈ p.stack := by
    rw [← List.mem_reverse, ← components_normalize, ← isAbsolute_iff, isAbsolute_normalize, hp]
  rw [components_normalize, List.mem_reverse]
  exact (stacked_stack p).up_not_mem hr

/-- The components of a path fold to those of its normal form, and to nothing else that is folded. -/
theorem folds_iff_eq_normalize (p : Path) :
    ReflTransGen Folds p.components cs ∧ Folded cs ↔ cs = p.normalize.components := by
  rw [components_normalize]
  constructor
  · rintro ⟨hfolds, hfolded⟩
    have hfolded : Folded (List.reverse [] ++ cs) := hfolded
    rw [stack, foldl_push_of_reflTransGen hfolds, hfolded.foldl_push, List.append_nil,
      List.reverse_reverse]
  · rintro rfl
    refine ⟨reflTransGen_foldl_push [] p.components, ?_⟩
    rw [← components_normalize]
    exact (normal_normalize p).folded

theorem normalize_normalize (p : Path) : p.normalize.normalize = p.normalize := by
  rw [normalize_eq_iff, stack_normalize]

theorem normalize_join (p q : Path) : (p.join q).normalize = (p.normalize.join q).normalize := by
  rw [normalize_eq_iff]
  exact stack_join_congr (stack_normalize p).symm q

end Path

def Snippet.base (options : EmbedOptions) (document : Path) : Path :=
  options.workingDir.join (options.sourceRoot?.getD document.parent)

theorem Snippet.sourcePath_eq (options : EmbedOptions) (document : Path) (target : Text) :
    sourcePath options document target = ((base options document).join ⟨target⟩).normalize :=
  rfl

/-- The normal form of a path is what its components fold to. It holds no `.`, it holds `..` in front
only and not at all behind a root, and a path may be normalized before another one is joined to it.
So embed paths lead on from the normal form of their base, and absolute ones from nothing. -/
theorem normalize_compatible_with_join (p q : Path) (options : EmbedOptions) (document : Path)
    (target : Text) :
    (∀ cs, ReflTransGen Path.Folds p.components cs ∧ Path.Folded cs ↔ cs = p.normalize.components) ∧
    Path.Normal p.normalize.components ∧
    (p.isAbsolute = true → .up ∉ p.normalize.components) ∧
    p.normalize.isAbsolute = p.isAbsolute ∧
    p.normalize.normalize = p.normalize ∧
    (p.join q).normalize = (p.normalize.join q).normalize ∧
    Snippet.sourcePath options document target =
      ((Snippet.base options document).normalize.join ⟨target⟩).normalize ∧
    ((⟨target⟩ : Path).isAbsolute = true →
      Snippet.sourcePath options document target = (⟨target⟩ : Path).normalize) := by
  refine ⟨fun cs => Path.folds_iff_eq_normalize p, Path.normal_normalize p,
    Path.up_not_mem_normalize, Path.isAbsolute_normalize p, Path.normalize_normalize p,
    Path.normalize_join p q, Path.normalize_join _ _, fun h => ?_⟩
  rw [Snippet.sourcePath_eq, Path.join_of_isAbsolute h]

end FenceSync
