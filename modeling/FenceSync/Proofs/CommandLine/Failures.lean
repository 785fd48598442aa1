import FenceSync.Proofs.CommandLine.Reports
import FenceSync.Proofs.Discovery.Documents
/-!
# Runs that fail

A writing run that fails has done nothing at all, or it has processed the documents in front of one
that cannot be read. Then it has written those of them that were out of date and nothing else.
-/
namespace FenceSync

namespace Run

/-- The documents are read one after the other, each in the files that the ones before it left, and
those that are out of date are written. -/
inductive Processes (options : EmbedOptions) :
    FileSystem → List Path → List (Path × Text) → FileSystem → Prop
  | done (fs : FileSystem) : Processes options fs [] [] fs
  | settled {fs fs' : FileSystem} {document : Path} {source : Text} {rest : List Path}
      {writes : List (Path × Text)} (read : fs.read document = .ok source)
      (unchanged : (Document.embed fs options document source).changed = false)
      (later : Processes options fs rest writes fs') :
      Processes options fs (document :: rest) writes fs'
  | written {fs fs₁ fs' : FileSystem} {document : Path} {source : Text} {rest : List Path}
      {writes : List (Path × Text)} (read : fs.read document = .ok source)
      (changed : (Document.embed fs options document source).changed = true)
      (write : fs.write document (Document.embed fs options document source).output.bytes = .ok fs₁)
      (later : Processes options fs₁ rest writes fs') :
      Processes options fs (document :: rest)
        ((document, (Document.embed fs options document source).output) :: writes) fs'

namespace Processes

variable {options : EmbedOptions} {fs fs' : FileSystem} {documents : List Path}
  {writes : List (Path × Text)}

theorem mem_documents (h : Processes options fs documents writes fs') :
    ∀ x ∈ writes, x.1 ∈ documents := by
  induction h with
  | done fs => exact nofun
  | settled read unchanged later ih => exact fun x hx => List.mem_cons_of_mem _ (ih x hx)
  | written read changed write later ih =>
    exact List.forall_mem_cons.2
      ⟨List.mem_cons_self, fun x hx => List.mem_cons_of_mem _ (ih x hx)⟩

/-- What no written document leads to stays as it is. -/
theorem get?_eq (h : Processes options fs documents writes fs') {at_ : Location}
    (hat : ∀ x ∈ writes, fs.reach x.1 ≠ .ok at_) : fs'.get? at_ = fs.get? at_ := by
  induction h with
  | done fs => rfl
  | settled read unchanged later ih => exact ih hat
  | written read changed write later ih =>
    obtain ⟨fs₂, hwrite, halike⟩ := FileSystem.exists_write_eq_ok read _
    rw [write] at hwrite
    cases hwrite
    obtain ⟨hdocument, hwrites⟩ := List.forall_mem_cons.1 hat
    -- the files after the write are alike, so the later documents lead where they led before
    rw [ih fun x hx => by rw [halike.reach]; exact hwrites x hx,
      FileSystem.get?_of_write_eq_ok write hdocument]

end Processes

def unreadable (root document : Path) (cause : FileError) : Text :=
  "failed to read ".toList ++ shown root document ++ ": ".toList ++ cause.message.toList

variable {args : Arguments} {r : Reporter} {options : EmbedOptions} {root : Path}

/-- A document that can be read is processed. -/
theorem Advances.processes (hw : options.mode = .write) {p p' : Progress} {document : Path}
    {source : Text} (hread : p.files.read document = .ok source)
    (ha : Advances args r options root p document source
      (Document.embed p.files options document source) p')
    {documents : List Path} {writes : List (Path × Text)} {fs : FileSystem}
    (h : Processes options p'.files documents writes fs) :
    Processes options p.files (document :: documents)
      ((written? options (document, Document.embed p.files options document source)).toList ++
        writes) fs := by
  have hfiles := ha.files
  simp only [filesAfter, written?, writesBack, hw, decide_true, Bool.true_and] at hfiles ⊢
  cases hc : (Document.embed p.files options document source).changed with
  | true =>
    rw [hc, if_pos rfl] at hfiles
    exact .written hread hc hfiles h
  | false =>
    rw [hc, if_neg (by decide)] at hfiles
    rw [← Except.ok.inj hfiles] at h
    exact .settled hread hc h

/-- A run that stops has processed the documents in front of one that cannot be read. -/
theorem exists_processes_of_steps_eq_error (hw : options.mode = .write) {p p' : Progress}
    {message : Text} {documents : List Path}
    (h : steps args r options root p documents = .error (p', message)) :
    ∃ before document after cause writes, documents = before ++ document :: after ∧
      Processes options p.files before writes p'.files ∧
      p'.events.filterMap Event.write? = p.events.filterMap Event.write? ++ writes ∧
      p'.files.read document = .error cause ∧ message = unreadable root document cause := by
  induction documents generalizing p with
  | nil => cases h
  | cons document rest ih =>
    cases hread : p.files.read document with
    | error cause =>
      simp only [steps, step, hread] at h
      cases h
      exact ⟨[], document, rest, cause, [], rfl, .done _, (List.append_nil _).symm, hread, rfl⟩
    | ok source =>
      obtain ⟨p₁, hs, ha⟩ := exists_step_eq_ok args r options root hread
      rw [steps, hs] at h
      obtain ⟨before, d, after, cause, writes, rfl, hp, hwrites, hd, hm⟩ := ih h
      refine ⟨document :: before, d, after, cause, _, rfl, ha.processes hw hread hp, ?_, hd, hm⟩
      rw [hwrites, ha.writes, List.append_assoc]

theorem exists_processes_of_status_eq_two (hw : options.mode = .write) {fs : FileSystem}
    {documents : List Path} (h : (process args r options root fs documents).ending.status = 2) :
    ∃ before document after cause, documents = before ++ document :: after ∧
      (process args r options root fs documents).ending =
        .stopped (unreadable root document cause) ∧
      (process args r options root fs documents).files.read document = .error cause ∧
      Processes options fs before (process args r options root fs documents).writes
        (process args r options root fs documents).files := by
  rw [process] at h ⊢
  split at h
  · next p message hs =>
    obtain ⟨before, document, after, cause, writes, hd, hp, hwrites, hread, rfl⟩ :=
      exists_processes_of_steps_eq_error hw hs
    refine ⟨before, document, after, cause, hd, rfl, hread, ?_⟩
    rw [Transcript.writes_eq, List.filterMap_append, hwrites]
    simpa only [Event.write?, List.filterMap_cons, List.filterMap_nil, List.nil_append,
      List.append_nil] using hp
  · next p hs =>
    split at h <;> cases h

/-- The documents of a run come in order, each once. -/
theorem increasing_of_prepare_eq_ok {fs : FileSystem} {config? : Option Config}
    {documents : List Path} (h : prepare args root fs = .ok (config?, documents)) :
    Path.Increasing documents := by
  obtain ⟨found, -, rfl, -⟩ := Discovery.collect_eq_ok_iff.1 (prepare_eq_ok_iff.1 h).2.1
  exact Path.increasing_sortDistinct _

/-- How a writing run fails. -/
inductive Fails (fs : FileSystem) (a : Arguments) (root : Path) (t : Transcript) : Prop
  /-- The settings or the search for documents failed, and the run has neither printed nor written
  anything. -/
  | early {cause : Failure} (prepare : prepare a root fs = .error cause)
      (ending : t.ending = .failed cause) (stdout : t.stdout = []) (writes : t.writes = [])
      (files : t.files = fs)
  /-- A document cannot be read. Of those in front of it the ones that were out of date have been
  written, and no other file has been touched. -/
  | stopped {config? : Option Config} {before after : List Path} {document : Path}
      {cause : FileError}
      (prepare : prepare a root fs = .ok (config?, before ++ document :: after))
      (ending : t.ending = .stopped (unreadable root document cause))
      (read : t.files.read document = .error cause)
      (processes : Processes (embedOptions a config? root) fs before t.writes t.files)
      (order : ∀ x ∈ t.writes, x.1 ∈ before ∧ ∀ p ∈ document :: after, x.1.compare p = .lt)
      (untouched : ∀ at_, (∀ x ∈ t.writes, fs.reach x.1 ≠ .ok at_) → t.files.get? at_ = fs.get? at_)

end Run

/-- A writing run with accepted arguments that ends with status 2 has done nothing, or it has
written the documents that were out of date in front of one that cannot be read. -/
theorem failed_write_run (fs : FileSystem) (colors : Bool) (args : List Text) {a : Arguments}
    (ha : Arguments.parse args = .ok a) (hmode : a.mode = .write)
    (hstatus : (Run.start fs colors args).ending.status = 2) :
    Run.Fails fs a (a.path?.getD fs.workingPath) (Run.start fs colors args) := by
  cases hp : Run.prepare a (a.path?.getD fs.workingPath) fs with
  | error cause =>
    rw [Run.start_of_prepare_eq_error ha hp]
    exact .early hp rfl rfl rfl rfl
  | ok x =>
    obtain ⟨config?, documents⟩ := x
    rw [Run.start_of_prepare_eq_ok ha hp] at hstatus ⊢
    obtain ⟨before, document, after, cause, rfl, hending, hread, hprocesses⟩ :=
      Run.exists_processes_of_status_eq_two hmode hstatus
    have horder := List.pairwise_append.1 (Run.increasing_of_prepare_eq_ok hp)
    refine .stopped hp hending hread hprocesses (fun x hx => ?_) fun at_ => hprocesses.get?_eq
    have hmem := hprocesses.mem_documents x hx
    exact ⟨hmem, fun p hp => horder.2.2 x.1 hmem p hp⟩

/-- The first document is up to date, the second is written, the third is no text, and the fourth is
out of date. -/
theorem failed_write_run_sample :
    let block : String := "\x60\x60\x60js\n// a\n\x60\x60\x60\n"
    let fs : FileSystem :=
      ⟨[(["a".toList], .file (Text.bytes "x\n".toList)), (["b".toList], .file []),
        (["c".toList], .file (Text.bytes block.toList)), (["d".toList], .file [255]),
        (["e".toList], .file (Text.bytes block.toList))], []⟩
    let args : List Text := ["e".toList, "d".toList, "c".toList, "b".toList]
    let a : Arguments :=
      ⟨args, false, false, false, none, false, false, false, .text, false, false, none⟩
    Arguments.parse args = .ok a ∧ a.mode = .write ∧
      (Run.start fs false args).ending.status = 2 ∧
      (Run.start fs false args).writes =
        [(⟨"/c".toList⟩, "\x60\x60\x60js\n// a\n\nx\n\x60\x60\x60\n".toList)] ∧
      Run.Fails fs a fs.workingPath (Run.start fs false args) := by
  intro block fs args a
  have ha : Arguments.parse args = .ok a := by decide
  have hstatus : (Run.start fs false args).ending.status = 2 := by decide +kernel
  exact ⟨ha, rfl, hstatus, by decide +kernel, failed_write_run fs false args ha rfl hstatus⟩

end FenceSync
