import FenceSync.CommandLine.Run
import FenceSync.Proofs.Path.Normal
import Mathlib.Data.List.Basic
/-!
# Where embed paths lead

Without a source root an embed path is to lead on from the directory of the document. The root of a
run stands in front of every document and in front of the directories of relative documents, so a
relative root is gone through twice. That makes no difference exactly when the root, read from
itself, is the root.
-/
namespace FenceSync

def Path.beside (document : Path) (target : Text) : Path :=
  (document.parent.join ⟨target⟩).normalize

def Path.IsNamed (p : Path) : Prop := ∃ name, p.components.getLast? = some (.name name)

/-- Where a target of a document below the root leads in a run, read from the working directory. -/
def Run.leads (fs : FileSystem) (args : Arguments) (config? : Option Config) (root document : Path)
    (target : Text) : Path :=
  (fs.workingPath.join (Snippet.sourcePath (embedOptions args config? root) (root.join document)
    target)).normalize

namespace Path

theorem IsNamed.steps_ne_nil {p : Path} (h : p.IsNamed) : p.steps ≠ [] := by
  obtain ⟨name, h⟩ := h
  have hmem := List.mem_of_getLast? h
  intro hs
  have hstep : Component.name name ∈ p.components.filter Component.isStep :=
    List.mem_filter.2 ⟨hmem, rfl⟩
  rw [← steps_eq, hs] at hstep
  cases hstep

/-- The directory of a document below a root, read from another directory. -/
theorem stack_join_parent_join (base root : Path) {document : Path} (h : document.IsNamed) :
    (base.join (root.join document).parent).stack =
      ((base.join root).join document).parent.stack := by
  have hs := h.steps_ne_nil
  cases hd : document.isAbsolute with
  | true =>
    have hp : document.parent.isAbsolute = true := by rw [isAbsolute_parent hs, hd]
    rw [join_of_isAbsolute hd, join_of_isAbsolute hp, join_of_isAbsolute hd]
  | false =>
    have hjoin := steps_join hd root
    have hne : (root.join document).steps ≠ [] := by simp [hjoin, hs]
    cases hr : root.isAbsolute with
    | true =>
      have hbytes : root.bytes ≠ [] := by
        intro hb
        simp [isAbsolute, hb] at hr
      have hp : (root.join document).parent.isAbsolute = true := by
        rw [isAbsolute_parent hne, isAbsolute_join hd hbytes, hr]
      rw [join_of_isAbsolute hp, join_of_isAbsolute hr]
    | false =>
      have hp : (root.join document).parent.isAbsolute = false := by
        rw [isAbsolute_parent hne, isAbsolute_join_of_relative hr hd]
      rw [stack_join hp, steps_parent hne, hjoin, List.dropLast_append_of_ne_nil hs,
        List.foldl_append, ← stack_join hr, stack_parent_join hd hs]

theorem stack_parent_join_congr {p q : Path} (h : p.stack = q.stack) {document : Path}
    (hd : document.IsNamed) : (p.join document).parent.stack = (q.join document).parent.stack := by
  cases ha : document.isAbsolute with
  | true => rw [join_of_isAbsolute ha, join_of_isAbsolute ha]
  | false => rw [stack_parent_join ha hd.steps_ne_nil, stack_parent_join ha hd.steps_ne_nil, h]

/-- What stands beside a path of one name tells of the directory. -/
theorem stack_eq_of_beside_eq {p q : Path}
    (h : (p.join ⟨"a".toList⟩).beside "a".toList = (q.join ⟨"a".toList⟩).beside "a".toList) :
    p.stack = q.stack := by
  have hrel : (⟨"a".toList⟩ : Path).isAbsolute = false := rfl
  have hsteps : (⟨"a".toList⟩ : Path).steps = [.name "a".toList] := rfl
  have hne : (⟨"a".toList⟩ : Path).steps ≠ [] := nofun
  rw [beside, beside, normalize_eq_iff, stack_join hrel, stack_join hrel,
    stack_parent_join hrel hne, stack_parent_join hrel hne, hsteps] at h
  exact List.tail_eq_of_cons_eq h

end Path

namespace Run

theorem join_workingPath_join (fs : FileSystem) (root : Path) :
    (fs.workingPath.join (fs.workingPath.join root)).join (fs.workingPath.join root) =
      fs.workingPath.join root := by
  rw [Path.join_of_isAbsolute (Path.isAbsolute_join_of_isAbsolute rfl root)]

variable {args : Arguments} {config? : Option Config}
  (hsource : args.sourceRoot?.or (config?.bind Config.sourceRoot?) = none)

include hsource

/-- Embed paths lead on from the directory that the document has below the root read twice. -/
theorem leads_eq (fs : FileSystem) (root : Path) {document : Path} (h : document.IsNamed)
    (target : Text) : leads fs args config? root document target =
      (((fs.workingPath.join root).join root).join document).beside target := by
  rw [leads, Path.beside, Path.normalize_eq_iff, Snippet.sourcePath, embedOptions, hsource,
    Path.resolve, Path.stack_join_normalize, Path.join_assoc, Path.join_assoc]
  exact Path.stack_join_congr (Path.stack_join_parent_join _ root h) _

/-- From an absolute root embed paths lead on from the directory of the document. -/
theorem leads_join_workingPath_eq (fs : FileSystem) (root : Path) {document : Path}
    (h : document.IsNamed) (target : Text) :
    leads fs args config? (fs.workingPath.join root) document target =
      ((fs.workingPath.join root).join document).beside target := by
  rw [leads_eq hsource fs _ h, join_workingPath_join]

/-- From a root that is the root when read from itself, embed paths lead on as from the absolute
root. -/
theorem leads_eq_leads_join_workingPath {fs : FileSystem} {root : Path}
    (h : ((fs.workingPath.join root).join root).normalize = (fs.workingPath.join root).normalize)
    {document : Path} (hd : document.IsNamed) (target : Text) :
    leads fs args config? root document target =
      leads fs args config? (fs.workingPath.join root) document target := by
  rw [leads_eq hsource fs root hd, leads_join_workingPath_eq hsource fs root hd, Path.beside,
    Path.beside, Path.normalize_eq_iff]
  exact Path.stack_join_congr (Path.stack_parent_join_congr (Path.normalize_eq_iff.1 h) hd) ⟨target⟩

end Run

/-- In a run without a source root, embed paths lead on from the directory of the document if the
root is absolute, and from the directory that the document has below the root read twice in any
case. So the spelling of the root makes no difference exactly when the root, read from itself, is
the root. -/
theorem leads_ignores_root_spelling_iff (fs : FileSystem) (args : Arguments)
    (config? : Option Config) (root : Path)
    (hsource : args.sourceRoot?.or (config?.bind Config.sourceRoot?) = none) :
    let cwd := fs.workingPath
    (∀ document : Path, document.IsNamed → ∀ target,
      Run.leads fs args config? (cwd.join root) document target =
          ((cwd.join root).join document).beside target ∧
        Run.leads fs args config? root document target =
          (((cwd.join root).join root).join document).beside target) ∧
      ((∀ document : Path, document.IsNamed → ∀ target,
          Run.leads fs args config? root document target =
            Run.leads fs args config? (cwd.join root) document target) ↔
        ((cwd.join root).join root).normalize = (cwd.join root).normalize) := by
  intro cwd
  refine ⟨fun document h target => ⟨Run.leads_join_workingPath_eq hsource fs root h target,
    Run.leads_eq hsource fs root h target⟩, fun h => ?_,
    fun h document hd target => Run.leads_eq_leads_join_workingPath hsource h hd target⟩
  have hnamed : (⟨"a".toList⟩ : Path).IsNamed := ⟨"a".toList, rfl⟩
  have h := h ⟨"a".toList⟩ hnamed "a".toList
  rw [Run.leads_eq hsource fs root hnamed,
    Run.leads_join_workingPath_eq hsource fs root hnamed] at h
  exact Path.normalize_eq_iff.2 (Path.stack_eq_of_beside_eq h)

theorem leads_ignores_root_spelling_iff_sample :
    let fs : FileSystem := ⟨[], ["c".toList]⟩
    let args : Arguments :=
      ⟨["d".toList], false, false, false, none, false, false, false, .text, false, false,
        some ⟨"r".toList⟩⟩
    let root : Path := ⟨"r".toList⟩
    let document : Path := ⟨"d".toList⟩
    args.sourceRoot?.or ((none : Option Config).bind Config.sourceRoot?) = none ∧
      document.IsNamed ∧
      Run.leads fs args none (fs.workingPath.join root) document "a".toList = ⟨"/c/r/a".toList⟩ ∧
      Run.leads fs args none root document "a".toList = ⟨"/c/r/r/a".toList⟩ ∧
      ¬ ∀ document : Path, document.IsNamed → ∀ target, Run.leads fs args none root document target =
        Run.leads fs args none (fs.workingPath.join root) document target := by
  intro fs args root document
  have hsource : args.sourceRoot?.or ((none : Option Config).bind Config.sourceRoot?) = none := rfl
  have hnamed : document.IsNamed := ⟨"d".toList, rfl⟩
  obtain ⟨hleads, hiff⟩ := leads_ignores_root_spelling_iff fs args none root hsource
  refine ⟨hsource, hnamed, (hleads document hnamed "a".toList).1.trans (by decide),
    (hleads document hnamed "a".toList).2.trans (by decide), fun h => ?_⟩
  exact absurd (hiff.1 h) (by decide)

/-- In a run that writes, without settings and without a source root, a document below a relative
root is not embedded as it is when the same root is read from the working directory. -/
theorem not_run_ignores_root_spelling : ¬ ∀ (fs : FileSystem) (root : Path) (inputs : List Text)
    (args : Arguments), Arguments.parse ("--path".toList :: root.text :: inputs) = .ok args →
      args.mode = .write → args.sourceRoot? = none → Config.load fs root = .ok none →
      root.isAbsolute = false → fs.isDirectory root = true →
      let run := fun r : Path => Run.start fs false ("--path".toList :: r.text :: inputs)
      (run root).ending.status = (run (fs.workingPath.join root)).ending.status ∧
        ∀ p, (run root).files.read p = (run (fs.workingPath.join root)).files.read p := by
  intro h
  have h := (h
    ⟨[(["c".toList], .directory), (["r".toList, "c".toList], .directory),
      (["d".toList, "r".toList, "c".toList], .file (Text.bytes "```js\n// a\n```\n".toList)),
      (["a".toList, "r".toList, "c".toList], .file (Text.bytes "x\n".toList))], ["c".toList]⟩
    ⟨"r".toList⟩ ["d".toList]
    ⟨["d".toList], false, false, false, none, false, false, false, .text, false, false,
      some ⟨"r".toList⟩⟩
    (by decide) (by decide) rfl (by decide) (by decide) (by decide)).2 ⟨"/c/r/d".toList⟩
  revert h
  decide +kernel

end FenceSync
