import FenceSync.Directive.Basic
import FenceSync.Proofs.Text.Search
import FenceSync.Snippet.Basic
/-!
# Directives and snippets that are found

When a block has a directive and where it stands, and when a target yields a snippet.
-/
namespace FenceSync

namespace Directive

theorem ofReference_eq_ok_iff {reference : Text} {override? : Option Text} {d : Directive} :
    ofReference reference override? = .ok d ↔ ∃ target, Target.ofReference reference = .ok target ∧
      d = ⟨reference, target, override?⟩ := by
  rw [ofReference]
  rcases h : Target.ofReference reference with (_ | path) | target
  · simp
  · simp
  · simp [eq_comm]

theorem firstLineReference_eq_ok_iff {e : LineEnding} {f : Fence} {reference : Text} :
    firstLineReference e f = .ok reference ↔ ∃ extension line fileType family,
      f.extension? = some extension ∧ f.firstLine? e = some line ∧ line ≠ [] ∧
      FileType.ofTag? extension = some fileType ∧ fileType.family? = some family ∧
      Comment.reference? family line = some reference := by
  rw [firstLineReference]
  constructor
  · intro h
    split at h
    · cases h
    · next extension hx =>
      split at h
      · cases h
      · next line hl =>
        rw [Option.filter_eq_some_iff] at hl
        split at h
        · cases h
        · next fileType ht =>
          split at h
          · cases h
          · next family hf =>
            split at h
            · cases h
            · next r hr =>
              cases h
              exact ⟨extension, line, fileType, family, hx, hl.1, by simpa using hl.2, ht, hf, hr⟩
  · rintro ⟨extension, line, fileType, family, hx, hl, hne, ht, hf, hr⟩
    have hfilter : (f.firstLine? e).filter (fun line => !line.isEmpty) = some line := by
      rw [hl, Option.filter_some, if_pos (by simpa using hne)]
    simp only [hx, hfilter, ht, hf, hr]

/-- A directive stands in front of the block or on its first line. -/
theorem ofFence_eq_ok_iff {e : LineEnding} {f : Fence} {preceding : Preceding} {d : Directive} :
    ofFence e f preceding = .ok d ↔ preceding.ignoreNext = false ∧
      ((∃ path, preceding.override? = some path ∧ ofReference path (some path) = .ok d) ∨
        (preceding.override? = none ∧ ∃ reference, firstLineReference e f = .ok reference ∧
          ofReference reference none = .ok d)) := by
  rw [ofFence]
  cases hi : preceding.ignoreNext with
  | true => simp
  | false =>
    cases ho : preceding.override? with
    | some path => simp
    | none =>
      cases hr : firstLineReference e f with
      | error reason => simp
      | ok reference => simp

/-- Without a comment in front of the block, its first line holds the reference. -/
theorem firstLineReference_of_override?_eq_none {e : LineEnding} {f : Fence}
    {preceding : Preceding} {d : Directive} (h : ofFence e f preceding = .ok d)
    (ho : d.override? = none) : firstLineReference e f = .ok d.reference := by
  obtain ⟨-, ⟨path, -, hd⟩ | ⟨-, reference, hr, hd⟩⟩ := ofFence_eq_ok_iff.1 h
  · obtain ⟨target, -, rfl⟩ := ofReference_eq_ok_iff.1 hd
    cases ho
  · obtain ⟨target, -, rfl⟩ := ofReference_eq_ok_iff.1 hd
    exact hr

/-- The target is that of the reference. -/
theorem target_of_ofFence {e : LineEnding} {f : Fence} {preceding : Preceding}
    {d : Directive} (h : ofFence e f preceding = .ok d) :
    Target.ofReference d.reference = .ok d.target := by
  obtain ⟨-, ⟨path, -, hd⟩ | ⟨-, reference, -, hd⟩⟩ := ofFence_eq_ok_iff.1 h
  · obtain ⟨target, ht, rfl⟩ := ofReference_eq_ok_iff.1 hd
    exact ht
  · obtain ⟨target, ht, rfl⟩ := ofReference_eq_ok_iff.1 hd
    exact ht

end Directive

/-- A snippet comes from a file that can be read, and holds no delimiter. -/
theorem Snippet.ofTarget_eq_ok_iff {fs : FileSystem} {options : EmbedOptions} {document : Path}
    {e : LineEnding} {target : Target} {snippet : Snippet} :
    ofTarget fs options document e target = .ok snippet ↔
      fs.exists? (sourcePath options document target.path) = true ∧ ∃ content,
        fs.read (sourcePath options document target.path) = .ok content ∧
        ¬ delimiter <:+: snippet.body ∧
        snippet = ⟨bodyOf e (select target.range (lines content)),
          (select target.range (lines content)).length⟩ := by
  rw [ofTarget]
  cases fs.exists? (sourcePath options document target.path) with
  | false => simp
  | true =>
    cases fs.read (sourcePath options document target.path) with
    | error cause => simp
    | ok content =>
      simp only [Bool.not_true, Bool.false_eq_true, if_false, Except.ok.injEq, exists_eq_left',
        true_and]
      split
      · next h =>
        rw [Text.contains_iff] at h
        constructor
        · intro hs
          cases hs
        · rintro ⟨hn, rfl⟩
          exact absurd h hn
      · next h =>
        rw [Text.contains_iff] at h
        constructor
        · intro hs
          cases hs
          exact ⟨h, rfl⟩
        · rintro ⟨-, rfl⟩
          rfl

end FenceSync
