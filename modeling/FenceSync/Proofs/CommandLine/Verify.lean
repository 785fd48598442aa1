import FenceSync.Proofs.CommandLine.Arguments
import FenceSync.Proofs.CommandLine.Reports
import FenceSync.Proofs.Embed.Filled
/-!
# Verifying foretells writing

Up to the first document that is out of date a verifying run and a writing one see the same files.
After it the writing run has changed some, but none has become more or less readable.
-/
namespace FenceSync

namespace Run

def firstStale? (reports : List (Path × Report)) : Option (Path × Text) :=
  (reports.find? (·.2.changed)).map fun x => (x.1, x.2.output)

theorem firstStale?_cons (x : Path × Report) (rest : List (Path × Report)) :
    firstStale? (x :: rest) = if x.2.changed then some (x.1, x.2.output) else firstStale? rest := by
  rw [firstStale?, List.find?_cons]
  cases x.2.changed <;> rfl

theorem isSome_firstStale? (reports : List (Path × Report)) :
    (firstStale? reports).isSome = reports.any (·.2.changed) := by
  rw [Bool.eq_iff_iff, firstStale?, Option.isSome_map, List.find?_isSome, List.any_eq_true]

section

variable {options : EmbedOptions}

/-- What is written first is the first document out of date. -/
theorem head?_filterMap_written? (hw : options.mode = .write) (reports : List (Path × Report)) :
    (reports.filterMap (written? options)).head? = firstStale? reports := by
  induction reports with
  | nil => rfl
  | cons x rest ih =>
    rw [firstStale?_cons, List.filterMap_cons, written?, writesBack]
    cases x.2.changed <;> simp [hw, ih]

theorem filesAfter_of_not_changed {report : Report} (h : report.changed = false) (fs : FileSystem)
    (document : Path) : filesAfter options fs document report = .ok fs := by
  simp [filesAfter, writesBack, h]

end

/-- The runs agree up to the first document out of date, whatever their modes. -/
theorem firstStale?_reports_mode (options : EmbedOptions) (mode mode' : RunMode) (fs : FileSystem)
    (documents : List Path) :
    firstStale? (reports { options with mode } fs documents) =
      firstStale? (reports { options with mode := mode' } fs documents) := by
  induction documents with
  | nil => rfl
  | cons document rest ih =>
    rw [reports, reports]
    cases fs.read document with
    | error cause => rfl
    | ok source =>
      have hm := Document.changed_embed_mode fs options document source mode
      have hm' := Document.changed_embed_mode fs options document source mode'
      simp only [firstStale?_cons, Document.output_embed_mode, hm, hm']
      cases hc : (Document.embed fs options document source).changed with
      | true => rfl
      | false =>
        simp only [filesAfter_of_not_changed (hm.trans hc),
          filesAfter_of_not_changed (hm'.trans hc), ih]

def account (fs : FileSystem) (args : List Text) : List (Path × Report) :=
  match Arguments.parse args with
  | .error _ => []
  | .ok args =>
    let root := args.path?.getD fs.workingPath
    match prepare args root fs with
    | .error _ => []
    | .ok (config?, documents) => reports (embedOptions args config? root) fs documents

/-- What a verifying run `v` says of the writing run `w`: it fails if `w` fails, it drifts if `w`
writes, and it passes if `w` has nothing to write. The first document written is `stale?`. -/
structure Foretells (v w : Transcript) (stale? : Option (Path × Text)) : Prop where
  fails : v.ending.status = 2 ↔ w.ending.status = 2
  drifts : v.ending.status = 1 ↔ w.ending.status = 0 ∧ w.writes ≠ []
  passes : v.ending.status = 0 ↔ w.ending.status = 0 ∧ w.writes = []
  first : w.writes.head? = stale?

/-- A run that does not begin ends alike in both modes. -/
theorem foretells_of_no_events {ending : Ending} (h : ending.status ≠ 1) (fs fs' : FileSystem) :
    Foretells ⟨[], ending, fs⟩ ⟨[], ending, fs'⟩ none where
  fails := Iff.rfl
  drifts := by simp [Transcript.writes, h]
  passes := by simp [Transcript.writes]
  first := rfl

theorem process_foretells {options : EmbedOptions} (hw : options.mode = .write)
    (args args' : Arguments) (r r' : Reporter) (root : Path) (fs : FileSystem)
    (documents : List Path) :
    Foretells (process args' r' { options with mode := .verify } root fs documents)
      (process args r options root fs documents)
      (firstStale? (reports { options with mode := .verify } fs documents)) := by
  have hfirst : (process args r options root fs documents).writes.head? =
      firstStale? (reports { options with mode := .verify } fs documents) := by
    rw [writes_process, head?_filterMap_written? hw]
    exact firstStale?_reports_mode options options.mode .verify fs documents
  have hany : (reports { options with mode := .verify } fs documents).any (·.2.changed) = true ↔
      (process args r options root fs documents).writes ≠ [] := by
    rw [← isSome_firstStale?, ← hfirst, List.isSome_head?]
  have hv := status_process args' r' { options with mode := .verify } root fs documents
  have hs := status_process args r options root fs documents
  by_cases hread : AllReadable fs documents
  · simp only [hread, if_true, hany, true_and] at hv
    simp only [hread, if_true, hw, reduceCtorEq, false_and, if_false] at hs
    by_cases hwrites : (process args r options root fs documents).writes = []
    · simp only [hwrites, ne_eq, not_true, if_false] at hv
      exact ⟨by simp [hv, hs], by simp [hv, hwrites], by simp [hv, hs, hwrites], hfirst⟩
    · simp only [hwrites, ne_eq, not_false_eq_true, if_true] at hv
      exact ⟨by simp [hv, hs], by simp [hv, hs, hwrites], by simp [hv, hwrites], hfirst⟩
  · rw [if_neg hread] at hv hs
    exact ⟨by rw [hv, hs], by simp [hv, hs], by simp [hv, hs], hfirst⟩

/-- The mode does not matter for what a run works on, unless it prints its document. -/
theorem prepare_verify {a : Arguments} (h : a.mode = .write) (root : Path) (fs : FileSystem) :
    prepare { a with verify := true } root fs = prepare a root fs := by
  have hv : Arguments.mode { a with verify := true } = .verify := rfl
  simp only [prepare, h, hv]
  rfl

end Run

/-- A run behind `--verify` foretells the run of the same arguments without a mode. Whatever the
files are, the two see the same documents, and what is written on the way repairs no document that
cannot be read. -/
theorem verify_foretells_write (fs : FileSystem) (colors : Bool) (args : List Text)
    (h : Arguments.ChooseNoMode args) :
    Run.Foretells (Run.start fs colors ("--verify".toList :: args)) (Run.start fs colors args)
      (Run.firstStale? (Run.account fs ("--verify".toList :: args))) := by
  rw [Run.start, Run.start, Run.account, Arguments.parse_verify h]
  cases hp : Arguments.parse args with
  | error cause =>
    apply Run.foretells_of_no_events
    cases cause <;> decide
  | ok a =>
    have hmode := Arguments.mode_of_parse h hp
    simp only [Except.map, Run.withArguments, Run.prepare_verify hmode]
    cases Run.prepare a (a.path?.getD fs.workingPath) fs with
    | error cause =>
      apply Run.foretells_of_no_events
      simp [Ending.status]
    | ok x =>
      obtain ⟨config?, documents⟩ := x
      have hwrite : (Run.embedOptions a config? (a.path?.getD fs.workingPath)).mode = .write :=
        hmode
      exact Run.process_foretells hwrite _ _ _ _ _ _ _

/-- The first document cannot be filled, the second is out of date, and the third is another name of
the second: it is out of date too unless the second has been written. -/
theorem verify_foretells_write_sample :
    let fs : FileSystem :=
      ⟨[(["a".toList], .file (Text.bytes "x\n".toList)),
        (["b".toList], .file (Text.bytes "```js\n// b\n```\n".toList)),
        (["c".toList], .file (Text.bytes "```js\n// a\n```\n".toList)),
        (["d".toList], .link ⟨"c".toList⟩)], []⟩
    let args : List Text := ["b".toList, "c".toList, "d".toList]
    Arguments.ChooseNoMode args ∧
      (Run.start fs false ("--verify".toList :: args)).ending.status = 1 ∧
      (Run.start fs false args).writes.length = 1 ∧
      Run.Foretells (Run.start fs false ("--verify".toList :: args)) (Run.start fs false args)
        (Run.firstStale? (Run.account fs ("--verify".toList :: args))) := by
  intro fs args
  have hargs : Arguments.ChooseNoMode args := by decide
  exact ⟨hargs, by decide +kernel, by decide +kernel, verify_foretells_write fs false args hargs⟩

end FenceSync
